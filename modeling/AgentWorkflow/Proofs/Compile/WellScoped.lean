import AgentWorkflow.Proofs.Compile.Names
import AgentWorkflow.Proofs.Compile.Success
import AgentWorkflow.Proofs.Program.Clients

/-!
Which names a generated program binds.

A node that is wrapped at several places is declared in the first function that wraps it: what is put inside
the function is there, and the later functions that wrap the node hold nothing but its instance. Main
statement: all names that a generated program uses are bound exactly if what a later function needs inside
is declared at a place that can be seen from where the function stands.
-/

namespace AgentWorkflow

open Relation Code

/-- From a place one sees the place, the top level, and outside of the function that wraps a node what is seen
from where the node was wrapped first. -/
inductive Sees (home : String → Option Place) : Place → Place → Prop
  | here {s : Place} : Sees home s s
  | topLevel {s : Place} : Sees home s .topLevel
  | out {owner : String} {isOpen : Bool} {s t : Place} :
    home owner = some s → Sees home s t → Sees home (.wrapper owner isOpen) t

/-- The place at which a node was wrapped first while a draft was made. -/
def Draft.home? (d : Draft) (id : String) : Option Place :=
  (d.demands.reverse.find? (·.wraps id)).map Demand.place

namespace Entry

variable {e : Entry} {late now : List String}

theorem bindsAll_body : bindsAll e.body = bindsAll e.run := rfl

theorem resolvesAll_body : resolvesAll late now e.body = resolvesAll late now e.run := by
  simp [body, promptChoice, resolvesAll, resolves, binds, reads, Code.line, Code.blank]

end Entry

namespace Blueprint

variable {b : Blueprint} {first : List Demand} {servers late now : List String} {id : String}
  {place : Place} {q : Demand} {f : Fragment} {l : Ledger}

/-- What a function needs inside that wraps a node which was wrapped before can be seen from where the
function stands. -/
def LaterWrappersSee (b : Blueprint) (demands : List Demand) (home : String → Option Place) : Prop :=
  ∀ q ∈ demands, q.part = .wrapper → home q.id ≠ some q.place →
    ∀ n ∈ b.contentDemands q.id (b.innerPlace q.id), n.place = b.innerPlace q.id →
      ∃ t, Sees home q.place t ∧ ⟨n.id, t, n.part⟩ ∈ demands

/-- The names of what is declared where a place sees it are bound. -/
def Shows (b : Blueprint) (l : Ledger) (late : List String) (place : Place) : Prop :=
  ∀ t, Sees l.home? place t → ∀ q ∈ l.keys, q.place = t → b.nameOf q ∈ late

theorem Shows.topLevel (h : b.Shows l late place) (hq : q ∈ l.keys) (hp : q.place = .topLevel) :
    b.nameOf q ∈ late :=
  h .topLevel .topLevel q hq hp

section Layout

theorem instanceFragment_position (kind : NodeKind) :
    FragmentKind.wrapper.position < kind.instanceFragment.position ∧
      kind.instanceFragment.position ≤ FragmentKind.composition.position := by
  have h : kind.instanceFragment = .agent ∨ kind.instanceFragment = .composition := by
    cases kind <;> simp [NodeKind.instanceFragment]
  rcases h with h | h <;> rw [h] <;> decide

theorem position_of_mem_toolDemands {n : Demand} {inside : List Fragment} (h : n ∈ b.toolDemands id) :
    (b.fragmentOf inside n).kind.position ≤ FragmentKind.wrapper.position := by
  rcases mem_toolDemands h with ⟨t, -, rfl⟩ | ⟨t, _, -, rfl⟩
  · exact (by decide : FragmentKind.customTool.position ≤ FragmentKind.wrapper.position)
  · exact (by decide : FragmentKind.client.position ≤ FragmentKind.wrapper.position)

theorem position_of_mem_contentDemands {n : Demand} {inside : List Fragment}
    (h : n ∈ b.contentDemands id place) :
    (b.fragmentOf inside n).kind.position ≤ (b.kindOf id).instanceFragment.position := by
  have hid := (instanceFragment_position (b.kindOf id)).1
  unfold contentDemands at h
  split at h <;> rename_i hk
  · exact (position_of_mem_toolDemands h).trans hid.le
  · rcases List.mem_append.mp h with h | h
    · obtain ⟨m, -, rfl⟩ := List.mem_map.mp h
      exact hid.le
    · exact (position_of_mem_toolDemands h).trans hid.le
  · obtain ⟨m, -, rfl⟩ := List.mem_map.mp h
    rw [hk]
    exact (instanceFragment_position (b.kindOf m)).2
  · obtain ⟨m, -, rfl⟩ := List.mem_map.mp h
    rw [hk]
    exact (instanceFragment_position (b.kindOf m)).2
  · cases h

variable (hb : b.Coherent) (ha : b.Agenda servers first) (h : b.Sound first l)

include hb ha h

theorem Sound.nameOf_mem_bindsAll (hm : (q, f) ∈ l) : b.nameOf q ∈ bindsAll f.code := by
  obtain ⟨inside, rfl⟩ := h.exists_inside hm
  exact Blueprint.nameOf_mem_bindsAll hb ((h.demanded (Ledger.mem_keys_of_mem hm)).1.placed hb ha)

theorem Sound.nameOf_mem_layout {fragments : List Fragment} (hq : q ∈ l.keys)
    (hsub : ∀ g, (q, g) ∈ l → g ∈ fragments) : b.nameOf q ∈ bindsAll (Fragment.layout fragments) := by
  obtain ⟨g, hg⟩ := Ledger.exists_of_mem_keys hq
  exact Fragment.mem_bindsAll_layout.mpr ⟨g, hsub g hg, h.nameOf_mem_bindsAll hb ha hg⟩

omit hb ha in
theorem Sound.kind_eq (hm : (q, f) ∈ l) : f.kind = (b.fragmentOf [] q).kind := by
  obtain ⟨inside, rfl⟩ := h.exists_inside hm
  unfold fragmentOf
  cases q.part <;> rfl

section Place

variable (hw : ∀ q f, (q, f) ∈ l → q.place = place → q.part = .wrapper → ∀ now, resolvesAll late now f.code = true)
  (hnow : place ≠ .topLevel → ∀ q ∈ l.keys, q.place = .topLevel → b.nameOf q ∈ now)

include hw hnow

theorem Sound.resolvesAll_fragment {earlier later : List Fragment} (hl : l.fragmentsAt place = earlier ++ f :: later)
    (he : ∀ g ∈ earlier, g.kind.position ≤ f.kind.position → bindsAll g.code ⊆ now) :
    resolvesAll late now f.code = true := by
  obtain ⟨before, q, after, hsplit, hp, rfl⟩ := Ledger.fragmentsAt_split hl
  have hm : (q, f) ∈ l := by
    rw [hsplit]
    exact List.mem_append_right _ List.mem_cons_self
  by_cases hq : q.part = .wrapper
  · exact hw q f hm hp hq now
  · rw [h.part_eq hm hq]
    refine resolvesAll_part hq fun n hd => ?_
    have hconstr : q.part = .construction := by
      cases hpart : q.part with
      | construction => rfl
      | wrapper => exact absurd hpart hq
      | _ => simp [demandsOf, hpart] at hd
    have hcontent : n ∈ b.contentDemands q.id q.place := by simpa [demandsOf, hconstr] using hd
    by_cases hnp : n.place = place
    · obtain ⟨g, hg⟩ := Ledger.exists_of_mem_keys (h.demandsOf_subset hsplit hd)
      have hgl : (n, g) ∈ l := by
        rw [hsplit]
        exact List.mem_append_left _ hg
      refine he g (Ledger.mem_fragmentsAt.mpr ⟨n, hg, hnp⟩) ?_ (h.nameOf_mem_bindsAll hb ha hgl)
      have hpos : (b.fragmentOf [] n).kind.position ≤ (b.kindOf q.id).instanceFragment.position :=
        position_of_mem_contentDemands hcontent
      rw [h.kind_eq hgl, h.kind_eq hm]
      simpa only [fragmentOf, hconstr] using hpos
    · have htop := (place_of_mem_contentDemands hcontent).resolve_left (hp ▸ hnp)
      exact hnow (fun hpl => hnp (htop.trans hpl.symm)) n (h.closed q (Ledger.mem_keys_of_mem hm) hd) htop

/-- The fragments at a place resolve, and with them fragments of no earlier kinds that use the instances
there, if the functions among them do that wrap nodes. -/
theorem Sound.resolvesAll_layout {extra : List Fragment}
    (hkind : ∀ e ∈ extra, FragmentKind.composition.position ≤ e.kind.position)
    (hextra : ∀ e ∈ extra, ∀ now', now ⊆ now' →
      (∀ q ∈ l.keys, q.place = place → q.part = .construction → b.nameOf q ∈ now') →
        resolvesAll late now' e.code = true) :
    resolvesAll late now (Fragment.layout (l.fragmentsAt place ++ extra)) = true := by
  refine Fragment.resolvesAll_layout fun earlier f later hsplit now' hn he => ?_
  -- One of the fragments at the place, or one of the others, which come after all of them.
  have hother (hf : f ∈ extra) (hall : l.fragmentsAt place ⊆ earlier) : resolvesAll late now' f.code = true := by
    refine hextra f hf now' hn fun q hq hp hc => ?_
    obtain ⟨g, hg⟩ := Ledger.exists_of_mem_keys hq
    refine he g (hall (Ledger.mem_fragmentsAt.mpr ⟨q, hg, hp⟩)) ?_ (h.nameOf_mem_bindsAll hb ha hg)
    rw [h.kind_eq hg]
    simp only [fragmentOf, hc]
    exact (instanceFragment_position _).2.trans (hkind f hf)
  rcases List.append_eq_append_iff.mp hsplit with ⟨more, rfl, hextra⟩ | ⟨rest, hl, hrest⟩
  · exact hother (by rw [hextra]; exact List.mem_append_right _ List.mem_cons_self) (List.subset_append_left _ _)
  · cases rest with
    | nil =>
      refine hother (by rw [show extra = f :: later from hrest.symm]; exact List.mem_cons_self) ?_
      rw [hl, List.append_nil]
      exact List.Subset.refl _
    | cons g rest =>
      obtain ⟨rfl, rfl⟩ := List.cons.inj hrest
      exact h.resolvesAll_fragment hb ha hw (fun hpl q hq hp => hn (hnow hpl q hq hp)) hl he

end Place

end Layout

section Wrapper

variable {inside : List Fragment}

theorem bindsAll_work :
    bindsAll (b.work id inside) = bindsAll (Fragment.layout inside) ++ bindsAll (b.content id) := by
  rw [work, Fragment.bindsAll_joinBlank, bindsAll_append]
  simp [bindsAll, binds]

theorem bindsAll_wrapperBody : bindsAll (b.wrapperBody id place inside) = bindsAll (b.work id inside) := by
  unfold wrapperBody
  split_ifs
  · rw [bindsAll, bindsAll, List.append_nil, binds]
  · rfl

/-- What is put inside the function that wraps a node: in the first such function everything demanded there. -/
def insideOf (b : Blueprint) (l : Ledger) (q : Demand) : List Fragment :=
  if l.home? q.id = some q.place then l.fragmentsAt (b.innerPlace q.id) else []

variable (hb : b.Coherent) (ha : b.Agenda servers first) (h : b.Sound first l)

include hb ha h

theorem Sound.wrapper_code (hm : (q, f) ∈ l) (hq : q.part = .wrapper) :
    f.code = [.toolFunction (b.nameIn q.id .tool) (wrapperText (b.nodeOf q.id))
      (b.wrapperBody q.id q.place (b.insideOf l q))] := by
  rw [h.wrapper_eq hb ha hm hq, fragmentOf_wrapper_code hq]
  rfl

theorem Sound.shows_inside (hs : b.Shows l late q.place) (hh : l.home? q.id = some q.place) :
    b.Shows l (late ++ bindsAll (b.work q.id (b.insideOf l q))) (b.innerPlace q.id) := by
  intro t ht n hn hp
  cases ht with
  | here =>
    apply List.mem_append_right
    rw [bindsAll_work, insideOf, if_pos hh]
    exact List.mem_append_left _ (h.nameOf_mem_layout hb ha hn fun g hg => Ledger.mem_fragmentsAt.mpr ⟨n, hg, hp⟩)
  | topLevel => exact List.mem_append_left _ (hs.topLevel hn hp)
  | out hhome ht =>
    rw [hh] at hhome
    obtain rfl := Option.some.inj hhome
    exact List.mem_append_left _ (hs t ht n hn hp)

theorem Sound.resolvesAll_wrapped (hsee : b.LaterWrappersSee l.keys l.home?) (hq : q ∈ l.keys)
    (hw : q.part = .wrapper) (hs : b.Shows l now q.place) :
    resolvesAll late (now ++ bindsAll (Fragment.layout (b.insideOf l q))) (b.content q.id) = true := by
  refine resolvesAll_content (b.innerPlace q.id) fun n hn => ?_
  have hkey : n ∈ l.keys := h.closed q hq (by simpa [demandsOf, hw] using Or.inl hn)
  rcases place_of_mem_contentDemands hn with hp | hp
  · by_cases hh : l.home? q.id = some q.place
    · rw [insideOf, if_pos hh]
      exact List.mem_append_right _
        (h.nameOf_mem_layout hb ha hkey fun g hg => Ledger.mem_fragmentsAt.mpr ⟨n, hg, hp⟩)
    · obtain ⟨t, ht, hmem⟩ := hsee q hq hw hh n hn hp
      exact List.mem_append_left _ (hs t ht ⟨n.id, t, n.part⟩ hmem rfl)
  · exact List.mem_append_left _ (hs.topLevel hkey hp)

theorem Sound.resolves_wrapper (hsee : b.LaterWrappersSee l.keys l.home?) (hm : (q, f) ∈ l)
    (hq : q.part = .wrapper) (hs : b.Shows l late q.place) : resolvesAll late now f.code = true := by
  induction hk : b.index.height q.id using Nat.strong_induction_on generalizing q f late now with
  | _ k ih =>
    have hkey := Ledger.mem_keys_of_mem hm
    have hp := (h.demanded hkey).1.placed hb ha
    rw [h.wrapper_code hb ha hm hq, resolvesAll_singleton, resolves, bindsAll_wrapperBody]
    -- The fragments inside resolve: they are of nodes below, and see what the function sees.
    have hinside : resolvesAll (late ++ bindsAll (b.work q.id (b.insideOf l q))) late
        (Fragment.layout (b.insideOf l q)) = true := by
      by_cases hh : l.home? q.id = some q.place
      · have hshows := h.shows_inside hb ha hs hh
        have hlayout : resolvesAll (late ++ bindsAll (b.work q.id (b.insideOf l q))) late
            (Fragment.layout (l.fragmentsAt (b.innerPlace q.id) ++ [])) = true := by
          refine h.resolvesAll_layout hb ha ?_ (fun _ n hn hnp => hs.topLevel hn hnp) (by simp) (by simp)
          intro p g hg hpl hpw now
          have hin := ((h.demanded (Ledger.mem_keys_of_mem hg)).1.placed hb ha).within
          rw [hpl] at hin
          have hlt : b.index.height p.id < k := hk ▸ Index.height_lt hb.acyclic hin.2
          exact ih _ hlt hg hpw (hpl ▸ hshows) rfl
        rw [List.append_nil] at hlayout
        rwa [insideOf, if_pos hh] at hlayout ⊢
      · rw [insideOf, if_neg hh]
        rfl
    have hwork : resolvesAll (late ++ bindsAll (b.work q.id (b.insideOf l q))) late
        (b.work q.id (b.insideOf l q)) = true := by
      refine Fragment.resolvesAll_joinBlank.mpr ⟨hinside, resolvesAll_append.mpr ⟨?_, ?_⟩⟩
      · exact h.resolvesAll_wrapped hb ha hsee hkey hq hs
      · have hname := instanceName_mem_bindsAll (kindOf_isExecutable (hp.executable (Or.inr hq)))
        rw [resolvesAll_singleton]
        simp [resolves, reads, hname]
    unfold wrapperBody
    split_ifs with ho
    · rw [resolvesAll_singleton, resolves, Bool.and_eq_true, List.all_eq_true]
      refine ⟨fun x hx => List.contains_iff_mem.mpr ?_, hwork⟩
      obtain ⟨s, hmem, rfl⟩ := List.mem_map.mp hx
      refine hs.topLevel (q := ⟨s, .topLevel, .client⟩) (h.closed q hkey ?_) rfl
      simp only [demandsOf, hq, ho, if_true]
      exact List.mem_append_right _ (List.mem_map.mpr ⟨s, hmem, rfl⟩)
    · exact hwork

end Wrapper

section Run

variable {root : Option String} {prompt : String}

theorem runPlace_eq_entryPlace {r : String} : b.runPlace r = b.entryPlace (some r) := by
  have hiff : b.closures.needsScope r = !(b.runServers (some r)).isEmpty := by
    have hs (s : String) : s ∈ b.runServers (some r) ↔ s ∈ b.closures.servers r := by
      rw [runServers, Index.mem_union]
      simp [runs]
    rw [Closures.needsScope, Bool.eq_iff_iff]
    simp only [Bool.not_eq_true', List.isEmpty_eq_false_iff_exists_mem, hs]
  unfold runPlace entryPlace
  rw [hiff]
  cases (b.runServers (some r)).isEmpty <;> rfl

theorem mem_fragmentsIn_of_mem (hm : (q, f) ∈ l) : f ∈ b.fragmentsIn root l q.place :=
  List.mem_append_left _ (Ledger.mem_fragmentsAt.mpr ⟨q, hm, rfl⟩)

theorem resolvesAll_workflow (hnow : ∀ id ∈ b.runs root, b.instanceName id ∈ now) {e : Fragment}
    (he : e ∈ b.workflow root) : resolvesAll late now e.code = true := by
  cases root with
  | some r => cases he
  | none =>
    obtain rfl := List.mem_singleton.mp he
    exact resolvesAll_graphContent fun id hid => hnow id (mem_distinct.mp hid)

theorem workflow_kind {e : Fragment} (he : e ∈ b.workflow root) : e.kind = .composition := by
  cases root with
  | some r => cases he
  | none =>
    obtain rfl := List.mem_singleton.mp he
    rfl

variable (hb : b.Coherent) (ha : b.Agenda (b.runServers root) (b.agenda root)) (h : b.Sound (b.agenda root) l)
  (complete : ∀ q, b.Demanded (b.agenda root) q → q ∈ l.keys)

include hb ha h complete

omit complete in
theorem Sound.nameOf_mem_fragmentsIn (hq : q ∈ l.keys) :
    b.nameOf q ∈ bindsAll (Fragment.layout (b.fragmentsIn root l q.place)) :=
  h.nameOf_mem_layout hb ha hq fun _ => mem_fragmentsIn_of_mem

omit complete in
theorem Sound.shows
    (hin : ∀ t, Sees l.home? place t → bindsAll (Fragment.layout (b.fragmentsIn root l t)) ⊆ late) :
    b.Shows l late place := by
  rintro t ht q hq rfl
  exact hin _ ht (h.nameOf_mem_fragmentsIn hb ha hq)

omit hb ha h in
theorem mem_keys_of_runs (hid : id ∈ b.runs root) : ⟨id, b.runPlace id, .construction⟩ ∈ l.keys :=
  complete _ (.first (mem_agenda.mpr (Or.inl ⟨id, hid, rfl⟩)))

theorem Sound.runName_mem : (b.runOf root).name ∈
    bindsAll (Fragment.layout (b.fragmentsIn root l (b.entryPlace root))) := by
  cases root with
  | some r =>
    rw [← runPlace_eq_entryPlace]
    exact h.nameOf_mem_fragmentsIn hb ha (mem_keys_of_runs complete (List.mem_singleton_self r))
  | none =>
    refine Fragment.mem_bindsAll_layout.mpr
      ⟨_, List.mem_append_right _ (by rw [if_pos rfl]; exact List.mem_singleton_self _), ?_⟩
    rw [bindsAll_graphContent]
    exact List.mem_pair.mpr (Or.inr rfl)

variable (hsee : b.LaterWrappersSee l.keys l.home?)

include hsee

theorem Sound.resolvesAll_fragmentsIn (hs : b.Shows l late place)
    (hnow : place ≠ .topLevel → ∀ q ∈ l.keys, q.place = .topLevel → b.nameOf q ∈ now) {extra : List Fragment}
    (hkind : ∀ e ∈ extra, e.kind = .entry)
    (hextra : ∀ e ∈ extra, ∀ now', now ⊆ now' → resolvesAll late now' e.code = true) :
    resolvesAll late now (Fragment.layout (b.fragmentsIn root l place ++ extra)) = true := by
  rw [fragmentsIn, List.append_assoc]
  refine h.resolvesAll_layout hb ha (fun q f hm hq hw now => ?_) hnow (fun e he => ?_) fun e he now' hn hin => ?_
  · exact h.resolves_wrapper hb ha hsee hm hw (hq ▸ hs)
  · rcases List.mem_append.mp he with he | he
    · split_ifs at he
      · rw [workflow_kind he]
      · cases he
    · rw [hkind e he]
      decide
  · rcases List.mem_append.mp he with he | he
    · split_ifs at he with hpe
      · refine resolvesAll_workflow (fun id hid => ?_) he
        have hkey := mem_keys_of_runs complete hid
        have hrun := memberPlace_eq (b := b) id (b.entryPlace root)
        rw [memberPlace_entryPlace hid, ← hpe] at hrun
        by_cases hrp : b.runPlace id = place
        · exact hin _ hkey hrp rfl
        · have htop := hrun.resolve_left hrp
          exact hn (hnow (fun hpl => hrp (htop.trans hpl.symm)) _ hkey htop)
      · cases he
    · exact hextra e he now' hn

theorem Sound.resolvesAll_run (hl : bindsAll (Fragment.layout (b.fragmentsIn root l .topLevel)) ⊆ late) :
    resolvesAll (late ++ bindsAll (b.entryOfRun root prompt l).run) late (b.entryOfRun root prompt l).run =
      true := by
  have htop {q : Demand} (hq : q ∈ l.keys) (hp : q.place = .topLevel) : b.nameOf q ∈ late :=
    hl (hp ▸ h.nameOf_mem_fragmentsIn hb ha hq)
  have hname := h.runName_mem hb ha complete
  have hclients : (b.entryOfRun root prompt l).clients = (b.runServers root).map fun s => b.nameIn s .client := rfl
  have hin : (b.entryOfRun root prompt l).inside = b.fragmentsIn root l .root := rfl
  have hroot : (b.entryOfRun root prompt l).root = (b.runOf root).name := rfl
  unfold Entry.run
  rw [hclients, hin, hroot, List.isEmpty_map]
  cases hempty : (b.runServers root).isEmpty with
  | true =>
    rw [entryPlace, hempty, if_pos rfl] at hname
    rw [if_pos rfl, resolvesAll_singleton]
    simpa [resolves, reads] using hl hname
  | false =>
    rw [entryPlace, hempty, if_neg Bool.false_ne_true] at hname
    rw [if_neg Bool.false_ne_true, resolvesAll_singleton, resolves, Bool.and_eq_true, List.all_eq_true]
    constructor
    · intro x hx
      obtain ⟨s, hs, rfl⟩ := List.mem_map.mp hx
      have hkey : ⟨s, .topLevel, .client⟩ ∈ l.keys :=
        complete _ (.first (mem_agenda.mpr (Or.inr (Or.inr ⟨s, hs, rfl⟩))))
      exact List.contains_iff_mem.mpr (htop hkey rfl)
    -- Inside the run, the names of the top level are joined by those that its own body binds.
    · generalize hlate : late ++ _ = late'
      have hsub : late ⊆ late' := hlate ▸ List.subset_append_left _ _
      have hshows : b.Shows l late' .root := by
        refine h.shows hb ha fun t ht => ?_
        cases ht with
        | here =>
          simp only [← hlate, bindsAll, binds, Fragment.bindsAll_joinBlank, List.append_nil]
          exact List.subset_append_right _ _
        | topLevel => exact List.Subset.trans hl hsub
      have hlayout : resolvesAll late' late (Fragment.layout (b.fragmentsIn root l .root ++ [])) = true :=
        h.resolvesAll_fragmentsIn hb ha complete hsee hshows (fun _ q hq hp => htop hq hp) (by simp) (by simp)
      rw [List.append_nil] at hlayout
      refine Fragment.resolvesAll_joinBlank.mpr ⟨hlayout, ?_⟩
      rw [resolvesAll_singleton]
      simp [resolves, reads, hname]

omit h complete in
/-- A program is well scoped if later functions see what they need inside. -/
theorem Accounts.isWellScoped {p : Program} {d : Draft} (hacc : b.Accounts root p d l) : p.IsWellScoped := by
  have h := hacc.sound
  obtain ⟨prompt, hfr⟩ := hacc.fragments
  rw [Program.isWellScoped_iff, hfr]
  generalize hlate : bindsAll _ = late
  have hl : bindsAll (Fragment.layout (b.fragmentsIn root l .topLevel)) ⊆ late := by
    intro x hx
    obtain ⟨g, hg, hx⟩ := Fragment.mem_bindsAll_layout.mp hx
    rw [← hlate]
    exact Fragment.mem_bindsAll_layout.mpr ⟨g, List.mem_append_left _ hg, hx⟩
  have hshows : b.Shows l late .topLevel := h.shows hb ha fun t ht => by cases ht <;> exact hl
  refine h.resolvesAll_fragmentsIn hb ha hacc.complete hsee hshows (fun hne => absurd rfl hne)
    (fun e he => by rw [List.mem_singleton.mp he]; rfl) fun e he now' _ => ?_
  obtain rfl := List.mem_singleton.mp he
  rw [Entry.fragment_code, resolvesAll, Bool.and_eq_true, resolves, Entry.bindsAll_body, Entry.resolvesAll_body]
  exact ⟨h.resolvesAll_run hb ha hacc.complete hsee hl, rfl⟩

end Run

section Seen

/-- A node below the one in whose wrapping function a place is. -/
def BelowOwner (b : Blueprint) : Place → String → Prop
  | .wrapper owner _, id => b.index.IsBelow id owner
  | _, _ => True

theorem Within.belowOwner {m : String} (h : b.Within servers m place) (hid : b.index.IsBelow id m) :
    b.BelowOwner place id := by
  cases place with
  | wrapper owner isOpen => exact TransGen.trans h.2 hid
  | _ => trivial

/-- Names of parts are bound only where a place sees the parts. -/
def ShowsOnly (b : Blueprint) (l : Ledger) (names : List String) (place : Place) : Prop :=
  ∀ n : Demand, (∃ m, b.index.node? n.id = some m ∧ m.kind.isExecutable = true) →
    n.part = .construction ∨ n.part = .wrapper → b.BelowOwner place n.id → b.nameOf n ∈ names →
      ∃ t, Sees l.home? place t ∧ ⟨n.id, t, n.part⟩ ∈ l.keys

theorem ShowsOnly.append {names more : List String} {s : Place} (hs : b.ShowsOnly l names s)
    (hbelow : ∀ id, b.BelowOwner place id → b.BelowOwner s id)
    (hsees : ∀ t, Sees l.home? s t → Sees l.home? place t)
    (hmore : ∀ n : Demand, (∃ m, b.index.node? n.id = some m ∧ m.kind.isExecutable = true) →
      n.part = .construction ∨ n.part = .wrapper → b.BelowOwner place n.id → b.nameOf n ∈ more →
        ⟨n.id, place, n.part⟩ ∈ l.keys) : b.ShowsOnly l (names ++ more) place := by
  intro n hn hpart hb hx
  rcases List.mem_append.mp hx with hx | hx
  · obtain ⟨t, ht, hk⟩ := hs n hn hpart (hbelow _ hb) hx
    exact ⟨t, hsees t ht, hk⟩
  · exact ⟨place, .here, hmore n hn hpart hb hx⟩

variable {root : Option String} {n : Demand}

theorem Sound.mem_keys_of_bindsAll (hb : b.Coherent) (ha : b.Agenda servers first) (h : b.Sound first l)
    (hm : (q, f) ∈ l) (hn : ∃ m, b.index.node? n.id = some m ∧ m.kind.isExecutable = true)
    (hpart : n.part = .construction ∨ n.part = .wrapper) (hx : b.nameOf n ∈ bindsAll f.code) :
    ⟨n.id, q.place, n.part⟩ ∈ l.keys := by
  obtain ⟨inside, rfl⟩ := h.exists_inside hm
  have hkey := Ledger.mem_keys_of_mem hm
  obtain ⟨hid, hp⟩ := eq_of_nameOf_mem_bindsAll hb ((h.demanded hkey).1.placed hb ha) hn hpart hx
  rw [← hid, ← hp]
  exact hkey

theorem nameOf_free (hb : b.Coherent) (hn : ∃ m, b.index.node? n.id = some m ∧ m.kind.isExecutable = true)
    (hpart : n.part = .construction ∨ n.part = .wrapper) :
    b.nameOf n ≠ "main" ∧ b.nameOf n ≠ workflowGraph ∧ b.nameOf n ≠ workflowBuilder := by
  obtain ⟨m, hm, hk⟩ := hn
  obtain ⟨role, hrole, -⟩ := nameOf_eq (b := b) hpart
  obtain ⟨hres, hfree⟩ := hb.name_free (hb.name?_eq hm (needsSymbol_of_isExecutable hk) role)
  rw [hrole]
  refine ⟨fun he => hres (he ▸ ?_), hfree⟩
  exact List.mem_append_left _ (List.mem_append_left _ List.mem_cons_self)

variable (hb : b.Coherent) (ha : b.Agenda (b.runServers root) (b.agenda root)) (h : b.Sound (b.agenda root) l)

include hb ha h

theorem Sound.mem_keys_of_fragmentsIn (hf : f ∈ b.fragmentsIn root l place)
    (hn : ∃ m, b.index.node? n.id = some m ∧ m.kind.isExecutable = true)
    (hpart : n.part = .construction ∨ n.part = .wrapper) (hx : b.nameOf n ∈ bindsAll f.code) :
    ⟨n.id, place, n.part⟩ ∈ l.keys := by
  rcases List.mem_append.mp hf with hf | hf
  · obtain ⟨q, hq, rfl⟩ := Ledger.mem_fragmentsAt.mp hf
    exact h.mem_keys_of_bindsAll hb ha hq hn hpart hx
  · obtain ⟨-, hgraph, hbuilder⟩ := nameOf_free hb hn hpart
    split_ifs at hf
    · cases root with
      | some r => cases hf
      | none =>
        obtain rfl := List.mem_singleton.mp hf
        rw [bindsAll_graphContent] at hx
        rcases List.mem_pair.mp hx with hx | hx
        · exact absurd hx hbuilder
        · exact absurd hx hgraph
    · cases hf

theorem Sound.showsOnly_topLevel (prompt : String) :
    b.ShowsOnly l (bindsAll (Fragment.layout
      (b.fragmentsIn root l .topLevel ++ [(b.entryOfRun root prompt l).fragment]))) .topLevel := by
  intro n hn hpart _ hx
  obtain ⟨g, hg, hx⟩ := Fragment.mem_bindsAll_layout.mp hx
  rcases List.mem_append.mp hg with hg | hg
  · exact ⟨.topLevel, .here, h.mem_keys_of_fragmentsIn hb ha hg hn hpart hx⟩
  · obtain rfl := List.mem_singleton.mp hg
    exact absurd (List.mem_singleton.mp hx) (nameOf_free hb hn hpart).1

omit ha h in
theorem nameOf_not_mem_bindsAll_content (hid : b.index.IsBelow n.id id)
    (hex : ∃ m, b.index.node? id = some m ∧ m.kind.isExecutable = true)
    (hn : ∃ m, b.index.node? n.id = some m ∧ m.kind.isExecutable = true)
    (hpart : n.part = .construction ∨ n.part = .wrapper) : b.nameOf n ∉ bindsAll (b.content id) := by
  intro hx
  obtain ⟨role, he, -⟩ := mem_bindsAll_content hx
  obtain ⟨role', hrole, -⟩ := nameOf_eq (b := b) hpart
  obtain ⟨m, hm, hk⟩ := hn
  obtain ⟨m', hm', hk'⟩ := hex
  rw [hrole] at he
  have := (hb.nameIn_inj hm (needsSymbol_of_isExecutable hk) hm' (needsSymbol_of_isExecutable hk') he).1
  rw [this] at hid
  exact hb.acyclic _ hid

theorem Sound.resolvesAll_work (hm : (q, f) ∈ l) (hq : q.part = .wrapper) (hres : resolvesAll late now f.code = true) :
    resolvesAll (late ++ bindsAll (b.work q.id (b.insideOf l q))) late (b.work q.id (b.insideOf l q)) = true := by
  rw [h.wrapper_code hb ha hm hq, resolvesAll_singleton, resolves, bindsAll_wrapperBody, wrapperBody] at hres
  split_ifs at hres
  · rw [resolvesAll_singleton, resolves, Bool.and_eq_true] at hres
    exact hres.2
  · exact hres

theorem Sound.showsOnly_inside (hm : (q, f) ∈ l) (hq : q.part = .wrapper) (hh : l.home? q.id = some q.place)
    (hs : b.ShowsOnly l late q.place) :
    b.ShowsOnly l (late ++ bindsAll (b.work q.id (b.insideOf l q))) (b.innerPlace q.id) := by
  have hp := (h.demanded (Ledger.mem_keys_of_mem hm)).1.placed hb ha
  refine hs.append (fun id hid => hp.within.belowOwner hid) (fun t ht => .out hh ht) fun n hn hpart hid hx => ?_
  rw [bindsAll_work, insideOf, if_pos hh] at hx
  rcases List.mem_append.mp hx with hx | hx
  · obtain ⟨g, hg, hx⟩ := Fragment.mem_bindsAll_layout.mp hx
    obtain ⟨q', hq', hp'⟩ := Ledger.mem_fragmentsAt.mp hg
    rw [← hp']
    exact h.mem_keys_of_bindsAll hb ha hq' hn hpart hx
  · exact absurd hx (nameOf_not_mem_bindsAll_content hb hid (hp.executable (Or.inr hq)) hn hpart)

theorem Sound.root_context {prompt : String} {names : List String} (hne : (b.runServers root).isEmpty = false)
    (hs : b.ShowsOnly l names .topLevel)
    (hres : resolvesAll names now (b.entryOfRun root prompt l).fragment.code = true) :
    ∃ late, b.ShowsOnly l late .root ∧
      resolvesAll late names (Fragment.layout (b.fragmentsIn root l .root)) = true := by
  have hrun : (b.entryOfRun root prompt l).run =
      [.withClients ((b.runServers root).map fun s => b.nameIn s .client)
        (Fragment.joinBlank (Fragment.layout (b.fragmentsIn root l .root))
          [.drive (b.runOf root).execution (b.runOf root).name])] := by
    have hclients : (b.entryOfRun root prompt l).clients.isEmpty = false := by
      change ((b.runServers root).map _).isEmpty = false
      rw [List.isEmpty_map, hne]
    unfold Entry.run
    rw [if_neg (by rw [hclients]; exact Bool.false_ne_true)]
    rfl
  rw [Entry.fragment_code, resolvesAll, Bool.and_eq_true, resolves, Entry.bindsAll_body, Entry.resolvesAll_body,
    hrun, resolvesAll_singleton, resolves, Bool.and_eq_true, Fragment.resolvesAll_joinBlank] at hres
  refine ⟨_, ?_, hres.1.2.1⟩
  refine hs.append (fun _ _ => trivial) (fun t ht => ?_) fun n hn hpart _ hx => ?_
  · cases ht <;> exact .topLevel
  · simp only [bindsAll, binds, Fragment.bindsAll_joinBlank, List.append_nil] at hx
    obtain ⟨g, hg, hx⟩ := Fragment.mem_bindsAll_layout.mp hx
    exact h.mem_keys_of_fragmentsIn hb ha hg hn hpart hx

omit hb h in
theorem Accounts.exists_first {p : Program} {d : Draft} (hacc : b.Accounts root p d l) {owner : String}
    (hq : q ∈ l.keys) (ho : q.place.owner? = some owner) :
    ∃ s g, l.home? owner = some s ∧ (⟨owner, s, .wrapper⟩, g) ∈ l := by
  obtain ⟨isOpen, hp⟩ := Place.eq_wrapper_of_owner? ho
  obtain ⟨s₀, hs₀⟩ := (hacc.sound.demanded hq).1.exists_wrapper ha.outside hp
  obtain ⟨s, hhome, hs⟩ := Sound.exists_home (q := ⟨owner, s₀, .wrapper⟩)
    (Sound.isWrapped_of_mem (hacc.complete _ hs₀) rfl)
  obtain ⟨g, hg⟩ := Ledger.exists_of_mem_keys hs
  exact ⟨s, g, hhome, hg⟩

/-- In a program that is well scoped each fragment resolves where the only names of parts are bound that can
be seen from its place. -/
theorem Sound.exists_context {p : Program} {d : Draft} (hacc : b.Accounts root p d l) (hwell : p.IsWellScoped)
    (hm : (q, f) ∈ l) : ∃ late now, resolvesAll late now f.code = true ∧ b.ShowsOnly l late q.place := by
  obtain ⟨prompt, hfr⟩ := hacc.fragments
  rw [Program.isWellScoped_iff, hfr] at hwell
  have htop := h.showsOnly_topLevel hb ha prompt
  -- Owners of functions are higher than what is inside, and no height reaches the depth.
  induction hk : b.depth - b.index.height q.id using Nat.strong_induction_on generalizing q f with
  | _ k ih =>
    have hkey := Ledger.mem_keys_of_mem hm
    have hp := (h.demanded hkey).1.placed hb ha
    have hin := hp.within
    cases hplace : q.place with
    | topLevel =>
      obtain ⟨now, hres⟩ := Fragment.exists_resolvesAll_of_layout hwell
        (List.mem_append_left _ (hplace ▸ mem_fragmentsIn_of_mem hm))
      exact ⟨_, now, hres, htop⟩
    | root =>
      rw [hplace] at hin
      have hne : (b.runServers root).isEmpty = false := by
        obtain ⟨s, hs⟩ := List.exists_mem_of_ne_nil _ (needsScope_iff.mp hin.1)
        exact List.isEmpty_eq_false_iff.mpr (List.ne_nil_of_mem (hin.2 hs))
      obtain ⟨now, hentry⟩ := Fragment.exists_resolvesAll_of_layout hwell
        (List.mem_append_right _ (List.mem_singleton_self _))
      obtain ⟨late, hs, hroot⟩ := h.root_context hb ha hne htop hentry
      obtain ⟨now, hres⟩ := Fragment.exists_resolvesAll_of_layout hroot (hplace ▸ mem_fragmentsIn_of_mem hm)
      exact ⟨late, now, hres, hs⟩
    | wrapper owner isOpen =>
      have ho : q.place.owner? = some owner := by rw [hplace, Place.owner?]
      obtain ⟨hinner, hbelow⟩ := hin.of_owner ho
      obtain ⟨s, g, hhome, hg⟩ := hacc.exists_first ha hkey ho
      have hlt := Index.height_lt hb.acyclic hbelow
      have hle := hb.shallow owner
      obtain ⟨late, now, hres, hshows⟩ := ih _ (by dsimp only; omega) hg rfl
      have hwork := h.resolvesAll_work hb ha hg rfl hres
      obtain ⟨now, hres⟩ := Fragment.exists_resolvesAll_of_layout (Fragment.resolvesAll_joinBlank.mp hwork).1
        (f := f) (by
          rw [insideOf, if_pos hhome]
          exact Ledger.mem_fragmentsAt.mpr ⟨q, hm, hinner⟩)
      refine ⟨_, now, hres, ?_⟩
      rw [← hplace, hinner]
      exact h.showsOnly_inside hb ha hg rfl hhome hshows

omit h in
/-- In a program that is well scoped later functions see what they need inside. -/
theorem Accounts.laterWrappersSee {p : Program} {d : Draft} (hacc : b.Accounts root p d l) (hwell : p.IsWellScoped) :
    b.LaterWrappersSee l.keys l.home? := by
  intro q hq hw hhome n hn hplace
  obtain ⟨f, hm⟩ := Ledger.exists_of_mem_keys hq
  obtain ⟨late, now, hres, hs⟩ := hacc.sound.exists_context hb ha hacc hwell hm
  have hkey : n ∈ l.keys := hacc.sound.closed q hq (by simpa [demandsOf, hw] using Or.inl hn)
  have hp := (hacc.sound.demanded hq).1.placed hb ha
  -- It is a part of a member: tools are at the top level.
  obtain ⟨hmember, hpart⟩ : n.id ∈ b.index.members q.id ∧ (n.part = .construction ∨ n.part = .wrapper) := by
    rcases mem_contentDemands hn with ht | ⟨m, hm, rfl⟩ | ⟨m, hm, rfl⟩
    · rcases mem_toolDemands ht with ⟨t, -, rfl⟩ | ⟨t, _, -, rfl⟩ <;> cases hplace
    · exact ⟨hm, Or.inr rfl⟩
    · exact ⟨hm, Or.inl rfl⟩
  have hbelow : b.index.IsBelow n.id q.id := .single hmember
  have hexec := ((hacc.sound.demanded hkey).1.placed hb ha).executable hpart
  obtain ⟨c, hc, hreads⟩ := exists_reads_content hn hpart
  have hwork := hacc.sound.resolvesAll_work hb ha hm hw hres
  have hcontent := (resolvesAll_append.mp (Fragment.resolvesAll_joinBlank.mp hwork).2).1
  -- Nothing is inside a later function but the instance itself.
  have hempty : bindsAll (Fragment.layout (b.insideOf l q)) = [] := by
    rw [insideOf, if_neg hhome]
    rfl
  rw [hempty, List.append_nil] at hcontent
  have hname := (mem_of_resolvesAll hcontent hc hreads).resolve_right
    (nameOf_not_mem_bindsAll_content hb hbelow (hp.executable (Or.inr hw)) hexec hpart)
  exact hs n hexec hpart (hp.within.belowOwner hbelow) hname

end Seen

end Blueprint

theorem Blueprint.Accounts.home?_eq {b : Blueprint} {root : Option String} {p : Program} {d : Draft} {l : Ledger}
    (h : b.Accounts root p d l) : d.home? = l.home? := by
  funext id
  rw [Draft.home?, Ledger.home?, ← List.head?_filter, ← List.head?_filter, h.order]

/-- The team without the reviewer. -/
def Graph.soleTeam : Graph where
  nodes := Graph.sharedTeam.nodes.filter (·.id ≠ "q")
  edges := Graph.sharedTeam.edges.filter fun e => e.source ≠ "q" ∧ e.target ≠ "q"

namespace Compilation

variable {g : Graph} {options : Options}

/-- All names that a generated program uses are bound exactly if each function that wraps a node which was
wrapped before sees, from where it stands, what it needs inside: the functions and instances of members that
were put inside the first function. -/
theorem compile_isWellScoped_iff (ids : g.HasUniqueIds)
    (h : (Compilation.mk g options .standard).compile.isSuccess = true) :
    ∃ p root, (Compilation.mk g options .standard).program? = some p ∧
      (Compilation.mk g options .standard).compile.sourceText = p.text ∧
      g.index.rootIn (g.index.effectiveMode options.mode) = .ok root ∧
      (p.IsWellScoped ↔ (g.index.blueprint root).LaterWrappersSee
        (Compilation.mk g options .standard).generate.2.demands
        (Compilation.mk g options .standard).generate.2.home?) := by
  obtain ⟨p, hp, ht⟩ := exists_program h
  obtain ⟨root, l, hv, hr, hroot, hacc⟩ := accounts_of_program? ids hp
  have hb := Blueprint.coherent ids (Index.isAcyclic_of_valid ids hv) root
  have ha := (runnable ids hv hroot).agenda hb
  have hsee : (g.index.blueprint root).LaterWrappersSee (Compilation.mk g options .standard).generate.2.demands
      (Compilation.mk g options .standard).generate.2.home? ↔
        (g.index.blueprint root).LaterWrappersSee l.keys l.home? := by
    unfold Blueprint.LaterWrappersSee
    simp only [hacc.demands, hacc.home?_eq]
  refine ⟨p, root, hp, ht, hr, ?_⟩
  rw [hsee]
  exact ⟨hacc.laterWrappersSee hb ha, fun hl => hacc.isWellScoped hb ha hl⟩

/-- The editor is wrapped twice. Its second function uses the function that wraps the writer, which stands in
the first one. -/
theorem sharedTeam_not_isWellScoped :
    Graph.sharedTeam.HasUniqueIds ∧ (Compilation.ofGraph .sharedTeam).compile.isSuccess = true ∧
      ∃ p, (Compilation.ofGraph .sharedTeam).program? = some p ∧ ¬p.IsWellScoped := by
  have evaluated : ((Compilation.ofGraph .sharedTeam).program?.map fun p => decide p.IsWellScoped) = some false := by
    decide +kernel
  obtain ⟨p, hp, hn⟩ := Option.map_eq_some_iff.mp evaluated
  exact ⟨by decide, by decide +kernel, p, hp, of_decide_eq_false hn⟩

/-- Without the reviewer the editor is wrapped once, and all names are bound. -/
theorem soleTeam_isWellScoped :
    Graph.soleTeam.HasUniqueIds ∧ (Compilation.mk .soleTeam .default .standard).compile.isSuccess = true ∧
      ∃ root, (Graph.soleTeam.index.blueprint root).LaterWrappersSee
        (Compilation.mk .soleTeam .default .standard).generate.2.demands
        (Compilation.mk .soleTeam .default .standard).generate.2.home? := by
  have ids : Graph.soleTeam.HasUniqueIds := by decide
  have success : (Compilation.mk .soleTeam .default .standard).compile.isSuccess = true := by decide +kernel
  have bound : ((Compilation.mk .soleTeam .default .standard).program?.map fun p => decide p.IsWellScoped) =
      some true := by decide +kernel
  obtain ⟨p, root, hp, -, -, hiff⟩ := compile_isWellScoped_iff ids success
  rw [hp, Option.map_some, Option.some.injEq] at bound
  exact ⟨ids, success, root, hiff.mp (of_decide_eq_true bound)⟩

end Compilation

end AgentWorkflow

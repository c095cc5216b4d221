import AgentWorkflow.Proofs.Graph.ClosingArcs
import AgentWorkflow.Proofs.Graph.Walk

/-!
What a search finds of the cycles of a graph.

Main statements: a search comes to an end; what it reports are different rings; and without the arcs that close them, no
cycle is left where it has been. So it reports nothing exactly if no cycle can be reached. It does not report every ring,
but one arc at least of every ring closes a ring that it reports.
-/

namespace AgentWorkflow.Digraph

open Relation

variable {g : Digraph} {vertices ring : List String} {v : String}

/-- A search finishes exactly the vertices that can be reached. The arcs that close rings lead to finished vertices too,
as a ring stays on the path until its vertices are finished. -/
theorem mem_done_search_iff : v ∈ (g.search vertices).done ↔ g.Reaches vertices v := by
  obtain ⟨hkeeps, hall⟩ := keeps_search g vertices
  constructor
  · exact fun h => hkeeps.reached v (.inl h)
  · rintro ⟨u, hu, huv⟩
    induction huv with
    | refl => exact hall u hu
    | @tail v w _ hvw hv =>
      by_cases hc : ∀ c ∈ (g.search vertices).closed, ¬[v, w] <:+ c
      · exact hkeeps.settled.closed hv (leads_without.mpr ⟨hvw, hc⟩)
      · push Not at hc
        obtain ⟨c, hm, hsuffix⟩ := hc
        obtain ⟨ring, hr, rfl⟩ := List.mem_map.mp hm
        have hw : w ∈ ring := mem_of_mem_closed (hsuffix.subset (by simp))
        exact (hkeeps.seen ring hr w hw).resolve_right List.not_mem_nil

theorem isSound_search (g : Digraph) (vertices : List String) : (g.search vertices).IsSound g :=
  (keeps_search g vertices).1.sound

theorem acyclic_without_cycles (hv : g.Reaches vertices v) :
    ¬TransGen (g.without (g.cycles vertices)).Leads v v :=
  (keeps_search g vertices).1.settled.acyclic (mem_done_search_iff.mpr hv)

theorem IsRing.transGen (h : g.IsRing ring) (hv : v ∈ ring) : TransGen g.Leads v v := by
  obtain ⟨u, rest, rfl, hclosed⟩ := h.eq_cons
  have hc : (u :: rest ++ [u]).IsChain (TransGen g.Leads) := (hclosed ▸ h.leads).imp fun _ _ => .single
  have hend : TransGen g.Leads v u := (List.pairwise_append.mp hc.pairwise).2.2 v hv u (List.mem_singleton_self u)
  rcases List.mem_cons.mp hv with rfl | hrest
  · exact hend
  · exact hend.trans (hc.rel_cons (List.mem_append_left _ hrest))

theorem reaches_of_mem_cycles {c : List String} (hc : c ∈ g.cycles vertices) (hv : v ∈ c) : g.Reaches vertices v := by
  obtain ⟨ring, hr, rfl⟩ := List.mem_map.mp hc
  obtain ⟨hkeeps, -⟩ := keeps_search g vertices
  exact hkeeps.reached v (hkeeps.seen ring hr v (mem_of_mem_closed hv))

theorem cycles_eq_nil_iff_reaches :
    g.cycles vertices = [] ↔ ∀ v, g.Reaches vertices v → ¬TransGen g.Leads v v := by
  constructor
  · intro h v hv
    have := acyclic_without_cycles hv
    rwa [h, without_nil] at this
  · intro h
    by_contra hne
    obtain ⟨c, hc⟩ := List.exists_mem_of_ne_nil _ hne
    obtain ⟨ring, hr, rfl⟩ := List.mem_map.mp hc
    obtain ⟨v, rest, rfl, -⟩ := (isSound_search g vertices ring hr).eq_cons
    exact h v (reaches_of_mem_cycles hc (by simp)) ((isSound_search g vertices _ hr).transGen List.mem_cons_self)

theorem acyclic_of_cycles_eq_nil (h : g.cycles vertices = []) (hv : v ∈ vertices) : ¬TransGen g.Leads v v :=
  cycles_eq_nil_iff_reaches.mp h v ⟨v, hv, .refl⟩

/-- Among all vertices that lead anywhere, nothing is reported exactly if there is no cycle. -/
theorem cycles_eq_nil_iff (hv : ∀ v w, g.Leads v w → v ∈ vertices) :
    g.cycles vertices = [] ↔ ∀ v, ¬TransGen g.Leads v v := by
  refine cycles_eq_nil_iff_reaches.trans ⟨fun h v hc => ?_, fun h v _ => h v⟩
  obtain ⟨w, hvw, -⟩ := TransGen.head'_iff.mp hc
  exact h v ⟨v, hv v w hvw, .refl⟩ hc

/-- Some lists tell the cycles that can be reached from some vertices, so far as to cut each of them. -/
structure CutsCycles (g : Digraph) (vertices : List String) (cycles : List (List String)) : Prop where
  /-- Each is a cycle: different vertices, and the first again. -/
  isCycle : ∀ c ∈ cycles, ∃ v rest, c = v :: rest ++ [v] ∧ (v :: rest).Nodup ∧ c.IsChain g.Leads
  apart : cycles.Pairwise fun c c' => ¬c.dropLast ~r c'.dropLast
  acyclic : ∀ v, g.Reaches vertices v → ¬TransGen (g.without cycles).Leads v v
  eq_nil_iff : cycles = [] ↔ ∀ v, g.Reaches vertices v → ¬TransGen g.Leads v v

theorem cutsCycles (g : Digraph) (vertices : List String) : g.CutsCycles vertices (g.cycles vertices) where
  isCycle c hc := by
    obtain ⟨ring, hr, rfl⟩ := List.mem_map.mp hc
    have hring := isSound_search g vertices ring hr
    obtain ⟨v, rest, rfl, hclosed⟩ := hring.eq_cons
    exact ⟨v, rest, hclosed, hring.nodup, hring.leads⟩
  apart := by
    have hsound := isSound_search g vertices
    refine List.pairwise_map.mpr ((keeps_search g vertices).1.apart.imp_of_mem fun hr hr' h => ?_)
    rwa [(hsound _ hr).dropLast_closed, (hsound _ hr').dropLast_closed]
  acyclic _ hv := acyclic_without_cycles hv
  eq_nil_iff := cycles_eq_nil_iff_reaches

theorem flatMap_ite_eq {vs : List String} (hn : vs.Nodup) (f : String → List String) (u : String) :
    (vs.flatMap fun v => if v = u then f v else []) = if u ∈ vs then f u else [] := by
  induction vs with
  | nil => rfl
  | cons v rest ih =>
    obtain ⟨hv, hrest⟩ := List.nodup_cons.mp hn
    rw [List.flatMap_cons, ih hrest]
    by_cases hu : v = u
    · subst hu
      simp [hv]
    · simp [hu, Ne.symm hu]

theorem successors_arcs (v u : String) (targets : List String) :
    successors (targets.map fun w => (v, w)) u = if v = u then targets else [] := by
  rw [successors, List.filterMap_map]
  split_ifs with h <;> simp [h]

/-- The arcs of a graph can be chosen so that it has any given successors, provided that they are finitely many. -/
theorem exists_successors_eq {f : String → List String} (hf : {v | f v ≠ []}.Finite) :
    ∃ g : Digraph, g.successors = f := by
  refine ⟨hf.toFinset.toList.flatMap fun v => (f v).map fun w => (v, w), funext fun u => ?_⟩
  calc successors (hf.toFinset.toList.flatMap fun v => (f v).map fun w => (v, w)) u
      = hf.toFinset.toList.flatMap fun v => successors ((f v).map fun w => (v, w)) u := List.filterMap_flatMap
    _ = hf.toFinset.toList.flatMap fun v => if v = u then f v else [] := by simp only [successors_arcs]
    _ = if u ∈ hf.toFinset.toList then f u else [] := flatMap_ite_eq (Finset.nodup_toList _) f u
    _ = f u := by by_cases hu : f u = [] <;> simp [hu]

/-- The search for cycles ends, for all vertices and all finite successor lists. It reports cycles only, none of them
twice, and enough of them to cut every cycle that can be reached. -/
theorem search_cutsCycles (f : String → List String) (hf : {v | f v ≠ []}.Finite) (vertices : List String) :
    (∃ g : Digraph, g.successors = f) ∧
      ∀ g : Digraph, g.successors = f →
        Walk.Runs g (.start vertices) ⟨[], [], g.search vertices⟩ ∧
          Walk.step g ⟨[], [], g.search vertices⟩ = none ∧
          g.CutsCycles vertices (g.cycles vertices) :=
  ⟨exists_successors_eq hf, fun g _ => ⟨g.runs_search vertices, rfl, g.cutsCycles vertices⟩⟩

/-- Two vertices that lead to each other, by two arcs in one direction. One of them leads out of the list, to a vertex
that leads to itself. -/
def twins : Digraph :=
  [("a", "b"), ("a", "b"), ("b", "a"), ("b", "x"), ("x", "x")]

theorem twins_cutsCycles :
    {v | twins.successors v ≠ []}.Finite ∧ twins.CutsCycles ["a"] [["a", "b", "a"], ["x", "x"]] := by
  have hf : {v | twins.successors v ≠ []}.Finite := by
    refine (List.finite_toSet (twins.map Prod.fst)).subset fun v hv => ?_
    obtain ⟨w, hw⟩ := List.exists_mem_of_ne_nil _ hv
    exact List.mem_map_of_mem (f := Prod.fst) (mem_successors.mp hw)
  have hcycles : twins.cycles ["a"] = [["a", "b", "a"], ["x", "x"]] := by decide +kernel
  exact ⟨hf, hcycles ▸ ((search_cutsCycles twins.successors hf ["a"]).2 twins rfl).2.2⟩

/-- One of the arcs of every ring that can be reached closes a ring that the search reports. A ring that has no arc in
common with another one is reported itself. -/
theorem exists_closing_arc (hring : g.IsRing ring) (hv : ∃ v ∈ ring, g.Reaches vertices v) :
    (∃ c ∈ g.cycles vertices, ∃ v w, [v, w] <:+ c ∧ [v, w] <:+: ring ++ ring.take 1) ∧
      ((∀ ring', g.IsRing ring' →
          (∃ v w, [v, w] <:+: ring' ++ ring'.take 1 ∧ [v, w] <:+: ring ++ ring.take 1) → ring' ~r ring) →
        ∃ c ∈ g.cycles vertices, c.dropLast ~r ring) := by
  have hcut : ∃ c ∈ g.cycles vertices, ∃ v w, [v, w] <:+ c ∧ [v, w] <:+: ring ++ ring.take 1 := by
    by_contra hnone
    push Not at hnone
    obtain ⟨v, hv, hreach⟩ := hv
    -- Otherwise the ring is still there when the closing arcs are taken away.
    have hleft : (g.without (g.cycles vertices)).IsRing ring := by
      refine ⟨hring.ne_nil, hring.nodup, List.isChain_iff_forall_rel_of_append_cons_cons.mpr ?_⟩
      intro a b before after he
      have hab : [a, b] <:+: ring ++ ring.take 1 := ⟨before, after, by simp [he]⟩
      exact leads_without.mpr ⟨List.isChain_iff_forall_rel_of_append_cons_cons.mp hring.leads he,
        fun c hc hsuffix => hnone c hc a b hsuffix hab⟩
    exact acyclic_without_cycles hreach (hleft.transGen hv)
  refine ⟨hcut, fun halone => ?_⟩
  obtain ⟨c, hc, v, w, hsuffix, hinfix⟩ := hcut
  obtain ⟨ring', hr', rfl⟩ := List.mem_map.mp hc
  have hring' := isSound_search g vertices ring' hr'
  refine ⟨_, hc, ?_⟩
  rw [hring'.dropLast_closed]
  exact halone ring' hring' ⟨v, w, hsuffix.isInfix, hinfix⟩

/-- Three vertices in a ring, two of which lead to each other. -/
def chord : Digraph :=
  [("a", "b"), ("b", "c"), ("c", "a"), ("a", "c")]

theorem chord_closing_arc :
    chord.IsRing ["a", "c"] ∧ (∃ v ∈ ["a", "c"], chord.Reaches ["a", "b", "c"] v) ∧
      ∃ c ∈ chord.cycles ["a", "b", "c"], ∃ v w, [v, w] <:+ c ∧ [v, w] <:+: ["a", "c", "a"] := by
  have hring : chord.IsRing ["a", "c"] := ⟨by decide, by decide, by unfold Leads; decide⟩
  have hreach : ∃ v ∈ ["a", "c"], chord.Reaches ["a", "b", "c"] v :=
    ⟨"a", List.mem_cons_self, "a", List.mem_cons_self, .refl⟩
  exact ⟨hring, hreach, (exists_closing_arc hring hreach).1⟩

/-- The search comes to the arc from a to c when c is finished, and does not report the ring that it closes. -/
theorem chord_ring_not_reported :
    chord.IsRing ["a", "c"] ∧ chord.Reaches ["a", "b", "c"] "a" ∧
      ¬∃ c ∈ chord.cycles ["a", "b", "c"], c.dropLast ~r ["a", "c"] := by
  have hcycles : chord.cycles ["a", "b", "c"] = [["a", "b", "c", "a"]] := by decide +kernel
  refine ⟨⟨by decide, by decide, by unfold Leads; decide⟩, ⟨"a", List.mem_cons_self, .refl⟩, ?_⟩
  rw [hcycles]
  decide

end AgentWorkflow.Digraph

import AgentWorkflow.Proofs.Graph.Rings

/-!
The arcs that close the rings that a search finds.

A search reports a ring for each arc that leads back into its path. It leaves a ring out only if that ring was reported
by way of another starting point, and then it was closed by the same arc. Main statement: a search finishes all vertices
it starts from, and without the arcs that close the rings reported, each finished vertex leads only to those that were
finished before.
-/

namespace AgentWorkflow.Digraph

open Relation

variable {g : Digraph} {vertices path ring ring' : List String} {s : Search} {v w : String}

/-! ### Rings with another starting point -/

theorem least_mem (a : String) (rest : List String) : least a rest ∈ a :: rest := by
  induction rest generalizing a with
  | nil => exact List.mem_singleton_self a
  | cons b rest ih =>
    rw [least]
    rcases List.mem_cons.mp (ih (if b < a then b else a)) with h | h
    · rw [h]
      split_ifs <;> simp
    · exact List.mem_cons_of_mem _ (List.mem_cons_of_mem _ h)

theorem least_le {a b : String} {rest : List String} (h : b ∈ a :: rest) : least a rest ≤ b := by
  induction rest generalizing a b with
  | nil => exact (List.mem_singleton.mp h).ge
  | cons c rest ih =>
    have hfirst : least (if c < a then c else a) rest ≤ if c < a then c else a := ih List.mem_cons_self
    have hboth : (if c < a then c else a) ≤ a ∧ (if c < a then c else a) ≤ c := by
      split_ifs with hc
      · exact ⟨hc.le, le_refl c⟩
      · exact ⟨le_refl a, not_lt.mp hc⟩
    rw [least]
    rcases List.mem_cons.mp h with rfl | h
    · exact hfirst.trans hboth.1
    · rcases List.mem_cons.mp h with rfl | h
      · exact hfirst.trans hboth.2
      · exact ih (List.mem_cons_of_mem _ h)

theorem least_eq_of_perm {a b : String} {rest rest' : List String} (h : (a :: rest).Perm (b :: rest')) :
    least a rest = least b rest' :=
  le_antisymm (least_le (h.mem_iff.mpr (least_mem b rest'))) (least_le (h.mem_iff.mp (least_mem a rest)))

theorem turned_isRotated (ring : List String) : turned ring ~r ring := by
  cases ring with
  | nil => exact .refl []
  | cons a rest =>
    have h : turned (a :: rest) ~r (a :: rest).takeWhile (· ≠ least a rest) ++ (a :: rest).dropWhile (· ≠ least a rest) :=
      List.isRotated_append
    rwa [List.takeWhile_append_dropWhile] at h

theorem head?_turned (a : String) (rest : List String) : (turned (a :: rest)).head? = some (least a rest) := by
  obtain ⟨before, after, he, hn⟩ := List.eq_append_cons_of_mem (least_mem a rest)
  have hdrop : (a :: rest).dropWhile (· ≠ least a rest) = least a rest :: after := by
    rw [he, List.dropWhile_append_of_pos]
    · simp
    · intro b hb
      exact decide_eq_true fun h => hn (h ▸ hb)
  simp only [turned, hdrop]
  rfl

theorem eq_of_isRotated_of_head? (hn : ring.Nodup) (h : ring ~r ring') (hh : ring.head? = ring'.head?) :
    ring = ring' := by
  obtain ⟨n, rfl⟩ := h
  cases ring with
  | nil => rw [List.rotate_nil]
  | cons a rest =>
    have hlt : n % (a :: rest).length < (a :: rest).length := Nat.mod_lt _ (Nat.succ_pos _)
    rw [← List.rotate_mod, List.head?_rotate hlt, List.head?_cons, List.getElem?_eq_getElem hlt,
      Option.some.injEq] at hh
    have hfirst : (a :: rest)[0] = (a :: rest)[n % (a :: rest).length] := hh
    have hz : 0 = n % (a :: rest).length := hn.getElem_inj_iff.mp hfirst
    exact (hn.rotate_eq_self_iff.mpr (Or.inl hz.symm)).symm

/-- Turning a ring to its least vertex forgets the starting point, and nothing else. -/
theorem turned_eq_iff (hn : ring.Nodup) : turned ring = turned ring' ↔ ring ~r ring' := by
  constructor
  · exact fun h => (turned_isRotated ring).symm.trans (h ▸ turned_isRotated ring')
  · intro h
    have hturned : turned ring ~r turned ring' :=
      (turned_isRotated ring).trans (h.trans (turned_isRotated ring').symm)
    refine eq_of_isRotated_of_head? ((turned_isRotated ring).nodup_iff.mpr hn) hturned ?_
    cases ring with
    | nil => rw [List.isRotated_nil_iff'.mp h]
    | cons a rest =>
      cases ring' with
      | nil => cases List.isRotated_nil_iff.mp h
      | cons b rest' => rw [head?_turned, head?_turned, least_eq_of_perm h.perm]

/-! ### The arcs that close rings -/

/-- The rings of a search, each closed by its first vertex. The last arc of such a list closes the ring. -/
def Search.closed (s : Search) : List (List String) :=
  s.rings.map fun ring => ring ++ ring.take 1

/-- A graph without the arcs that close some rings. -/
def without (g : Digraph) (closed : List (List String)) : Digraph :=
  g.filter fun (v, w) => ∀ c ∈ closed, ¬[v, w] <:+ c

theorem leads_without {closed : List (List String)} :
    (g.without closed).Leads v w ↔ g.Leads v w ∧ ∀ c ∈ closed, ¬[v, w] <:+ c := by
  simp [without, Leads]

theorem without_nil (g : Digraph) : g.without [] = g := by
  simp [without]

/-- In a list of finished vertices each leads only to later ones. -/
def IsSettled (g : Digraph) : List String → Prop
  | [] => True
  | v :: rest => (∀ w ∈ g.successors v, w ∈ rest) ∧ g.IsSettled rest

theorem IsSettled.closed {done : List String} (h : g.IsSettled done) {v w : String} (hv : v ∈ done)
    (hw : g.Leads v w) : w ∈ done := by
  induction done with
  | nil => cases hv
  | cons u rest ih =>
    apply List.mem_cons_of_mem
    rcases List.mem_cons.mp hv with rfl | hv
    · exact h.1 w (mem_successors.mpr hw)
    · exact ih h.2 hv

theorem IsSettled.closed_transGen {done : List String} (h : g.IsSettled done) {v w : String}
    (hv : v ∈ done) (hw : TransGen g.Leads v w) : w ∈ done := by
  induction hw with
  | single hs => exact h.closed hv hs
  | tail _ hs ih => exact h.closed ih hs

theorem IsSettled.acyclic {done : List String} (h : g.IsSettled done) {v : String} (hv : v ∈ done) :
    ¬TransGen g.Leads v v := by
  induction done generalizing v with
  | nil => cases hv
  | cons u rest ih =>
    rcases List.mem_cons.mp hv with rfl | hv
    · intro hc
      have hr : v ∈ rest := by
        obtain ⟨w, hw, hc⟩ := TransGen.head'_iff.mp hc
        have hwr := h.1 w (mem_successors.mpr hw)
        rcases reflTransGen_iff_eq_or_transGen.mp hc with rfl | hc
        · exact hwr
        · exact h.2.closed_transGen hwr hc
      exact ih h.2 hr hc
    · exact ih h.2 hv

theorem IsSettled.anti {g' : Digraph} (hg : ∀ v w, g'.Leads v w → g.Leads v w) {done : List String}
    (h : g.IsSettled done) : g'.IsSettled done := by
  induction done with
  | nil => trivial
  | cons v rest ih => exact ⟨fun w hw => h.1 w (mem_successors.mpr (hg v w (mem_successors.mp hw))), ih h.2⟩

theorem IsRing.eq_cons (h : g.IsRing ring) : ∃ v rest, ring = v :: rest ∧ ring ++ ring.take 1 = v :: rest ++ [v] := by
  obtain ⟨v, rest, rfl⟩ := List.exists_cons_of_ne_nil h.ne_nil
  exact ⟨v, rest, rfl, rfl⟩

theorem IsRing.dropLast_closed (h : g.IsRing ring) : (ring ++ ring.take 1).dropLast = ring := by
  obtain ⟨v, rest, rfl, hc⟩ := h.eq_cons
  rw [hc, List.dropLast_concat]

theorem mem_of_mem_closed (hv : v ∈ ring ++ ring.take 1) : v ∈ ring :=
  (List.mem_append.mp hv).elim id List.mem_of_mem_take

theorem prefix_reverse_ring (hw : w ∈ path) : (Digraph.ring path w).reverse <+: path := by
  have h : path.takeWhile (· ≠ w) ++ [w] <+: path := takeWhile_ne_prefix hw
  rwa [Digraph.ring, List.reverse_cons, List.reverse_reverse]

theorem mem_path_of_mem_ring {u : String} (hw : w ∈ path) (hu : u ∈ Digraph.ring path w) : u ∈ path :=
  (prefix_reverse_ring hw).subset (List.mem_reverse.mpr hu)

theorem suffix_ring (hw : w ∈ v :: path) :
    [v, w] <:+ Digraph.ring (v :: path) w ++ (Digraph.ring (v :: path) w).take 1 := by
  obtain ⟨u, before, hr⟩ := List.exists_cons_of_ne_nil
    (List.reverse_ne_nil_iff.mpr (List.cons_ne_nil w ((v :: path).takeWhile (· ≠ w)).reverse))
  obtain rfl : u = v := (List.cons_prefix_cons.mp (hr ▸ prefix_reverse_ring hw)).1
  have hring : Digraph.ring (u :: path) w = before.reverse ++ [u] := by
    rw [← List.reverse_cons, ← hr, List.reverse_reverse, Digraph.ring]
  have htake : (Digraph.ring (u :: path) w).take 1 = [w] := rfl
  rw [htake, hring, List.append_assoc]
  exact List.suffix_append _ _

/-! ### What a search keeps -/

/-- A vertex can be reached from some of the vertices. -/
def Reaches (g : Digraph) (vertices : List String) (v : String) : Prop :=
  ∃ u ∈ vertices, ReflTransGen g.Leads u v

theorem Reaches.leads (h : g.Reaches vertices v) (hvw : g.Leads v w) : g.Reaches vertices w := by
  obtain ⟨u, hu, huv⟩ := h
  exact ⟨u, hu, huv.tail hvw⟩

/-- A search has got further. -/
structure Search.Grows (s s' : Search) : Prop where
  done : s.done ⊆ s'.done
  rings : s.rings ⊆ s'.rings

theorem Search.Grows.refl (s : Search) : s.Grows s :=
  ⟨List.Subset.refl _, List.Subset.refl _⟩

theorem Search.Grows.trans {s s' s'' : Search} (h : s.Grows s') (h' : s'.Grows s'') : s.Grows s'' :=
  ⟨List.Subset.trans h.done h'.done, List.Subset.trans h.rings h'.rings⟩

theorem Search.Grows.closed {s s' : Search} (h : s.Grows s') : s.closed ⊆ s'.closed :=
  List.map_subset _ h.rings

/-- What a search keeps while it follows a path. -/
structure Search.Keeps (g : Digraph) (vertices path : List String) (s : Search) : Prop where
  sound : s.IsSound g
  /-- No vertex of the path is finished. -/
  fresh : ∀ v ∈ path, v ∉ s.done
  reached : ∀ v, v ∈ s.done ∨ v ∈ path → g.Reaches vertices v
  seen : ∀ ring ∈ s.rings, ∀ v ∈ ring, v ∈ s.done ∨ v ∈ path
  /-- A ring no vertex of which is finished still lies on the path. -/
  kept : ∀ ring ∈ s.rings, (∃ v ∈ ring, v ∈ s.done) ∨ ring.reverse <:+: path
  apart : s.rings.Pairwise fun ring ring' => ¬ring ~r ring'
  settled : (g.without s.closed).IsSettled s.done

/-- An arc has been looked at: it leads to a finished vertex, or closes a ring that is reported. -/
def Search.Handled (s : Search) (v w : String) : Prop :=
  w ∈ s.done ∨ ∃ c ∈ s.closed, [v, w] <:+ c

theorem Search.Handled.grows {s s' : Search} (h : s.Handled v w) (hs : s.Grows s') : s'.Handled v w := by
  rcases h with h | ⟨c, hc, hvw⟩
  · exact .inl (hs.done h)
  · exact .inr ⟨c, hs.closed hc, hvw⟩

namespace Search.Keeps

theorem start (g : Digraph) (vertices : List String) : Search.Keeps g vertices [] ⟨[], []⟩ where
  sound := fun _ h => by cases h
  fresh := fun _ h => by cases h
  reached := fun _ h => by cases h <;> contradiction
  seen := fun _ h => by cases h
  kept := fun _ h => by cases h
  apart := .nil
  settled := trivial

theorem descend (h : s.Keeps g vertices path) (hv : g.Reaches vertices v) (hnew : v ∉ s.done) :
    s.Keeps g vertices (v :: path) where
  sound := h.sound
  fresh := List.forall_mem_cons.mpr ⟨hnew, h.fresh⟩
  reached := by
    rintro u (hu | hu)
    · exact h.reached u (.inl hu)
    · rcases List.mem_cons.mp hu with rfl | hu
      · exact hv
      · exact h.reached u (.inr hu)
  seen ring hr u hu := (h.seen ring hr u hu).imp_right (List.mem_cons_of_mem v)
  kept ring hr := (h.kept ring hr).imp_right fun hi => hi.trans (List.suffix_cons v path).isInfix
  apart := h.apart
  settled := h.settled

/-- A ring that is left out was reported as it stands: it lies on the path with the ring reported, in the same order. -/
theorem eq_of_isRotated (h : s.Keeps g vertices path) (hn : path.Nodup) (hr : ring ∈ s.rings)
    (hw : w ∈ path) (hrot : ring ~r Digraph.ring path w) : ring = Digraph.ring path w := by
  rcases h.kept ring hr with ⟨u, hu, hdone⟩ | hi
  · exact absurd hdone (h.fresh u (mem_path_of_mem_ring hw (hrot.mem_iff.mp hu)))
  · have hrev : ring.reverse.Perm (Digraph.ring path w).reverse := hrot.reverse.perm
    exact List.reverse_injective
      ((hn.perm_iff_eq_of_sublist hi.sublist (prefix_reverse_ring hw).sublist).mp hrev)

theorem close (h : s.Keeps g vertices (v :: path)) (hp : g.IsPath (v :: path)) (hw : w ∈ v :: path)
    (hvw : g.Leads v w) :
    (s.report (Digraph.ring (v :: path) w)).Keeps g vertices (v :: path) ∧
      s.Grows (s.report (Digraph.ring (v :: path) w)) ∧
      (s.report (Digraph.ring (v :: path) w)).Handled v w := by
  have hring : g.IsRing (Digraph.ring (v :: path) w) := hp.isRing hw hvw
  unfold Search.report
  split_ifs with hany
  · obtain ⟨ring, hr, heq⟩ := List.any_eq_true.mp hany
    have hrot := (turned_eq_iff (h.sound ring hr).nodup).mp (of_decide_eq_true heq)
    have hsame : ring = Digraph.ring (v :: path) w := h.eq_of_isRotated hp.nodup hr hw hrot
    exact ⟨h, .refl s, .inr ⟨_, List.mem_map_of_mem (hsame ▸ hr), suffix_ring hw⟩⟩
  · have hgrows : s.Grows { s with rings := s.rings ++ [Digraph.ring (v :: path) w] } :=
      ⟨List.Subset.refl _, List.subset_append_left _ _⟩
    have hnew : Digraph.ring (v :: path) w ∈ s.rings ++ [Digraph.ring (v :: path) w] :=
      List.mem_append_right _ (List.mem_singleton_self _)
    refine ⟨⟨?_, h.fresh, h.reached, ?_, ?_, ?_, ?_⟩, hgrows, .inr ⟨_, List.mem_map_of_mem hnew, suffix_ring hw⟩⟩
    · exact List.forall_mem_append.mpr ⟨h.sound, List.forall_mem_singleton.mpr hring⟩
    · exact List.forall_mem_append.mpr
        ⟨h.seen, List.forall_mem_singleton.mpr fun u hu => .inr (mem_path_of_mem_ring hw hu)⟩
    · exact List.forall_mem_append.mpr
        ⟨h.kept, List.forall_mem_singleton.mpr (.inr (prefix_reverse_ring hw).isInfix)⟩
    · refine List.pairwise_append.mpr ⟨h.apart, List.pairwise_singleton _ _, fun ring hr => ?_⟩
      refine List.forall_mem_singleton.mpr fun hrot => hany (List.any_eq_true.mpr ⟨ring, hr, ?_⟩)
      exact decide_eq_true ((turned_eq_iff (h.sound ring hr).nodup).mpr hrot)
    · refine h.settled.anti fun a b hab => ?_
      obtain ⟨hl, hc⟩ := leads_without.mp hab
      exact leads_without.mpr ⟨hl, fun c hm => hc c (hgrows.closed hm)⟩

theorem finish (h : s.Keeps g vertices (v :: path)) (hn : (v :: path).Nodup)
    (hall : ∀ w ∈ g.successors v, s.Handled v w) :
    Search.Keeps g vertices path { s with done := v :: s.done } where
  sound := h.sound
  fresh u hu hdone := by
    rcases List.mem_cons.mp hdone with rfl | hdone
    · exact (List.nodup_cons.mp hn).1 hu
    · exact h.fresh u (List.mem_cons_of_mem v hu) hdone
  reached u hu := by
    refine h.reached u ?_
    simp only [List.mem_cons] at hu ⊢
    tauto
  seen ring hr u hu := by
    have := h.seen ring hr u hu
    simp only [List.mem_cons] at this ⊢
    tauto
  kept ring hr := by
    rcases h.kept ring hr with ⟨u, hu, hdone⟩ | hi
    · exact .inl ⟨u, hu, List.mem_cons_of_mem v hdone⟩
    · rcases List.infix_cons_iff.mp hi with hpre | hi
      · -- The ring starts at the end of the path, so that its last vertex is the one that is finished.
        obtain ⟨u, rest, hr'⟩ := List.exists_cons_of_ne_nil (List.reverse_ne_nil_iff.mpr (h.sound ring hr).ne_nil)
        obtain rfl : u = v := (List.cons_prefix_cons.mp (hr' ▸ hpre)).1
        exact .inl ⟨u, List.mem_reverse.mp (hr' ▸ List.mem_cons_self), List.mem_cons_self⟩
      · exact .inr hi
  apart := h.apart
  settled := by
    refine ⟨fun w hw => ?_, h.settled⟩
    obtain ⟨hvw, hc⟩ := leads_without.mp (mem_successors.mp hw)
    rcases hall w (mem_successors.mpr hvw) with hdone | ⟨c, hm, hsuffix⟩
    · exact hdone
    · exact absurd hsuffix (hc c hm)

end Search.Keeps

/-- Steps that keep a search sound and make it grow, one for each of some vertices, together see to all of them. -/
theorem Search.keeps_foldl {P : Search → Prop} {Q : String → Search → Prop} {f : Search → String → Search}
    (hQ : ∀ w s s', Q w s → s.Grows s' → Q w s') {ws : List String}
    (visits : ∀ s, ∀ w ∈ ws, P s → P (f s w) ∧ s.Grows (f s w) ∧ Q w (f s w)) (hs : P s) :
    P (ws.foldl f s) ∧ s.Grows (ws.foldl f s) ∧ ∀ w ∈ ws, Q w (ws.foldl f s) := by
  induction ws generalizing s with
  | nil => exact ⟨hs, .refl s, by simp⟩
  | cons w ws ih =>
    obtain ⟨hp, hg, hq⟩ := visits s w List.mem_cons_self hs
    obtain ⟨hp', hg', hq'⟩ := ih (fun s u hu => visits s u (List.mem_cons_of_mem w hu)) hp
    exact ⟨hp', hg.trans hg', List.forall_mem_cons.mpr ⟨hQ w _ _ hq hg', hq'⟩⟩

/-- An exploration finishes its vertex, and leaves the path as it was. -/
theorem keeps_explore {ends : List String} (hv : ∀ v w, g.Leads v w → w ∈ ends) {fuel : ℕ}
    (hp : g.IsPath (v :: path)) (hu : v :: path ⊆ ends) (hf : ends.length ≤ path.length + fuel)
    (hreach : g.Reaches vertices v) (hnew : v ∉ s.done) (hs : s.Keeps g vertices path) :
    (explore g fuel path v s).Keeps g vertices path ∧ s.Grows (explore g fuel path v s) ∧
      v ∈ (explore g fuel path v s).done := by
  induction fuel generalizing path v s with
  | zero =>
    -- The path has no vertex twice, so the fuel lasts for as long as it can get.
    have := (hp.nodup.subperm hu).length_le
    simp only [List.length_cons] at this
    omega
  | succ fuel ih =>
    have hvisit (s : Search) (w : String) (hw : w ∈ g.successors v) (hs : s.Keeps g vertices (v :: path)) :
        (g.visit fuel (v :: path) s w).Keeps g vertices (v :: path) ∧ s.Grows (g.visit fuel (v :: path) s w) ∧
          (g.visit fuel (v :: path) s w).Handled v w := by
      have hvw : g.Leads v w := mem_successors.mp hw
      unfold visit
      split_ifs with hd hc
      · exact ⟨hs, .refl s, .inl (by simpa using hd)⟩
      · exact hs.close hp (by simpa using hc) hvw
      · obtain ⟨h, hg, hdone⟩ := ih (hp.cons (by simpa using hc) hvw) (List.cons_subset.mpr ⟨hv v w hvw, hu⟩)
          (by simp only [List.length_cons]; omega) (hreach.leads hvw) (by simpa using hd) hs
        exact ⟨h, hg, .inl hdone⟩
    obtain ⟨hkeeps, hgrows, hall⟩ := Search.keeps_foldl (Q := fun w s => s.Handled v w)
      (fun _ _ _ h hg => h.grows hg) hvisit (hs.descend hreach hnew)
    rw [explore_succ]
    exact ⟨hkeeps.finish hp.nodup hall, hgrows.trans ⟨List.subset_cons_self _ _, List.Subset.refl _⟩,
      List.mem_cons_self⟩

theorem keeps_search (g : Digraph) (vertices : List String) :
    (g.search vertices).Keeps g vertices [] ∧ ∀ v ∈ vertices, v ∈ (g.search vertices).done := by
  have leads : ∀ v w, g.Leads v w → w ∈ vertices ++ g.map Prod.snd := fun v w hvw =>
    List.mem_append_right _ (List.mem_map_of_mem (f := Prod.snd) hvw)
  obtain ⟨hkeeps, -, hall⟩ := Search.keeps_foldl
    (f := fun s v => if s.done.contains v then s else explore g (vertices.length + g.length + 1) [] v s)
    (P := Search.Keeps g vertices []) (Q := fun w s => w ∈ s.done)
    (fun _ _ _ h hg => hg.done h) (by
      intro s v hv hs
      split_ifs with hd
      · exact ⟨hs, .refl s, by simpa using hd⟩
      · exact keeps_explore leads (.singleton v) (by simpa using Or.inl hv) (by simp) ⟨v, hv, .refl⟩
          (by simpa using hd) hs)
    (.start g vertices)
  exact ⟨hkeeps, hall⟩

end AgentWorkflow.Digraph

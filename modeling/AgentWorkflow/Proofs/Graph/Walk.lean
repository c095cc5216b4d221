import AgentWorkflow.Proofs.Graph.Rings

/-!
Depth-first search step by step.

A walk is a search under way, with a stack in place of nested explorations. Main statement: a walk comes to an end,
and has then found what the search finds.
-/

namespace AgentWorkflow.Digraph

open Relation

/-- A search under way. -/
structure Walk where
  /-- The vertices that are still to be searched from. -/
  waiting : List String
  /-- The path, its last vertex first. Each vertex stands with its successors that were not looked at so far. -/
  stack : List (String × List String)
  found : Search

namespace Walk

def start (vertices : List String) : Walk :=
  ⟨vertices, [], ⟨[], []⟩⟩

/-- One step of a walk: one arc is looked at, or a vertex is finished, or the next one is searched from. There is no
step when the search is over. -/
def step (g : Digraph) : Walk → Option Walk
  | ⟨[], [], _⟩ => none
  | ⟨v :: waiting, [], s⟩ =>
    if s.done.contains v then some ⟨waiting, [], s⟩ else some ⟨waiting, [(v, g.successors v)], s⟩
  | ⟨waiting, (v, []) :: stack, s⟩ => some ⟨waiting, stack, { s with done := v :: s.done }⟩
  | ⟨waiting, (v, w :: rest) :: stack, s⟩ =>
    let path := v :: stack.map Prod.fst
    if s.done.contains w then some ⟨waiting, (v, rest) :: stack, s⟩
    else if path.contains w then some ⟨waiting, (v, rest) :: stack, s.report (ring path w)⟩
    else some ⟨waiting, (w, g.successors w) :: (v, rest) :: stack, s⟩

/-- A walk leads to another in finitely many steps. -/
def Runs (g : Digraph) : Walk → Walk → Prop :=
  ReflTransGen fun k k' => k.step g = some k'

variable {g : Digraph} {waiting : List String} {stack : List (String × List String)} {s : Search} {v : String}

theorem runs_foldl {fuel : ℕ} {ws : List String}
    (descends : ∀ rest s, ∀ w ∈ ws, w ∉ v :: stack.map Prod.fst →
      Runs g ⟨waiting, (w, g.successors w) :: (v, rest) :: stack, s⟩
        ⟨waiting, (v, rest) :: stack, explore g fuel (v :: stack.map Prod.fst) w s⟩) :
    Runs g ⟨waiting, (v, ws) :: stack, s⟩
      ⟨waiting, (v, []) :: stack, ws.foldl (g.visit fuel (v :: stack.map Prod.fst)) s⟩ := by
  induction ws generalizing s with
  | nil => exact .refl
  | cons w rest ih =>
    have hfirst : Runs g ⟨waiting, (v, w :: rest) :: stack, s⟩
        ⟨waiting, (v, rest) :: stack, g.visit fuel (v :: stack.map Prod.fst) s w⟩ := by
      unfold visit
      split_ifs with hd hp
      · exact .single (by simp only [step, hd, if_true])
      · exact .single (by simp only [step, hd, hp, if_true, if_false, Bool.false_eq_true])
      · refine ReflTransGen.head ?_ (descends rest s w List.mem_cons_self (by simpa using hp))
        simp only [step, hd, hp, if_false, Bool.false_eq_true]
    exact hfirst.trans (ih fun rest s u hu => descends rest s u (List.mem_cons_of_mem w hu))

theorem runs_explore {vertices : List String} (hv : ∀ v w, g.Leads v w → w ∈ vertices) {fuel : ℕ}
    (hn : (v :: stack.map Prod.fst).Nodup) (hp : v :: stack.map Prod.fst ⊆ vertices)
    (hf : vertices.length ≤ stack.length + fuel) :
    Runs g ⟨waiting, (v, g.successors v) :: stack, s⟩
      ⟨waiting, stack, explore g fuel (stack.map Prod.fst) v s⟩ := by
  induction fuel generalizing stack v s with
  | zero =>
    have := (hn.subperm hp).length_le
    simp only [List.length_cons, List.length_map] at this
    omega
  | succ fuel ih =>
    have hdescends (rest : List String) (s : Search) (w : String) (hw : w ∈ g.successors v)
        (hnew : w ∉ v :: stack.map Prod.fst) :
        Runs g ⟨waiting, (w, g.successors w) :: (v, rest) :: stack, s⟩
          ⟨waiting, (v, rest) :: stack, explore g fuel (v :: stack.map Prod.fst) w s⟩ := by
      refine ih (List.nodup_cons.mpr ⟨hnew, hn⟩) (List.cons_subset.mpr ⟨hv v w (mem_successors.mp hw), hp⟩) ?_
      simp only [List.length_cons]
      omega
    rw [explore_succ]
    exact (runs_foldl hdescends).tail (by simp only [step])

end Walk

theorem runs_search (g : Digraph) (vertices : List String) :
    Walk.Runs g (.start vertices) ⟨[], [], g.search vertices⟩ := by
  have leads : ∀ v w, g.Leads v w → w ∈ vertices ++ g.map Prod.snd := fun v w hvw =>
    List.mem_append_right _ (List.mem_map_of_mem (f := Prod.snd) hvw)
  suffices h : ∀ (waiting : List String) (s : Search), waiting ⊆ vertices →
      Walk.Runs g ⟨waiting, [], s⟩ ⟨[], [], waiting.foldl (fun s v =>
        if s.done.contains v then s else explore g (vertices.length + g.length + 1) [] v s) s⟩ from
    h vertices _ (List.Subset.refl _)
  intro waiting
  induction waiting with
  | nil => exact fun s _ => .refl
  | cons v rest ih =>
    intro s hsub
    obtain ⟨hv, hrest⟩ := List.cons_subset.mp hsub
    rw [List.foldl_cons]
    refine ReflTransGen.trans ?_ (ih _ hrest)
    split_ifs with hd
    · exact .single (by simp only [Walk.step, hd, if_true])
    · refine ReflTransGen.head (b := ⟨rest, [(v, g.successors v)], s⟩) ?_ ?_
      · simp only [Walk.step, hd, if_false, Bool.false_eq_true]
      · exact Walk.runs_explore leads (by simp) (by simpa using Or.inl hv) (by simp)

end AgentWorkflow.Digraph

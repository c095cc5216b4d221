import AgentWorkflow.Proofs.Program.Pieces

/-!
Which instances the functions of a program share.

A swarm, a step of a dependency graph and a run refer to instances by name. `constructsFirst` says that code
constructs the instances before it refers to them. A program builds per call if the body of each function does,
so that the function refers to no instance from outside.
-/

namespace AgentWorkflow

namespace Code

/-- The instances that a piece of code refers to where it stands. -/
def instances : Code → List String
  | .swarm _ members entry _ => members ++ entry.toList
  | .addNode _ member _ => [member]
  | .answer _ name | .drive _ name => [name]
  | _ => []

mutual

/-- The instances that a piece of code constructs where it stands. -/
def constructed : Code → List String
  | .withClients _ body => constructedAll body
  | code => code.constructs?.toList

def constructedAll : List Code → List String
  | [] => []
  | code :: rest => constructed code ++ constructedAll rest

end

mutual

/-- Code refers only to instances that are constructed so far. The body of a function is run later, and is no
part of this. -/
def constructsFirst (built : List String) : Code → Bool
  | .withClients _ body => constructsFirstAll built body
  | code => code.instances.all (built.contains ·)

/-- The same of several pieces, each of which can refer to what those before it construct. -/
def constructsFirstAll (built : List String) : List Code → Bool
  | [] => true
  | code :: rest => constructsFirst built code && constructsFirstAll (built ++ constructed code) rest

end

def body? : Code → Option (List Code)
  | .toolFunction _ _ body => some body
  | _ => none

variable {built built' : List String} {code more : List Code} {c : Code} {x : String}

theorem constructedAll_append : constructedAll (code ++ more) = constructedAll code ++ constructedAll more := by
  induction code with
  | nil => rfl
  | cons c rest ih => rw [List.cons_append, constructedAll, ih, constructedAll, List.append_assoc]

theorem mem_constructedAll : x ∈ constructedAll code ↔ ∃ c ∈ code, x ∈ c.constructed := by
  induction code with
  | nil => simp [constructedAll]
  | cons c rest ih => simp [constructedAll, ih]

theorem constructedAll_singleton : constructedAll [c] = c.constructed := by
  rw [constructedAll, constructedAll, List.append_nil]

theorem constructsFirstAll_singleton : constructsFirstAll built [c] = constructsFirst built c := by
  rw [constructsFirstAll, constructsFirstAll, Bool.and_true]

theorem constructsFirstAll_append : constructsFirstAll built (code ++ more) = true ↔
    constructsFirstAll built code = true ∧ constructsFirstAll (built ++ constructedAll code) more = true := by
  induction code generalizing built with
  | nil => simp [constructsFirstAll, constructedAll]
  | cons c rest ih =>
    simp only [List.cons_append, constructsFirstAll, Bool.and_eq_true, ih, constructedAll, and_assoc,
      List.append_assoc]

theorem isSequential_constructsFirstAll :
    IsSequential constructedAll fun built code => constructsFirstAll built code = true where
  names_append _ _ := constructedAll_append
  names_blank := rfl
  nil _ := rfl
  blank _ := rfl
  append _ _ _ := constructsFirstAll_append

theorem constructsFirst_of_instances (hc : c.inner = []) (h : ∀ x ∈ c.instances, x ∈ built) :
    constructsFirst built c = true := by
  have hall : c.instances.all (built.contains ·) = true :=
    List.all_eq_true.mpr fun x hx => List.contains_iff_mem.mpr (h x hx)
  cases c with
  | withClients clients body =>
    obtain rfl : body = [] := hc
    rfl
  | _ => exact hall

theorem constructsFirstAll_of_forall (h : ∀ c ∈ code, ∀ now, built ⊆ now → constructsFirst now c = true) :
    constructsFirstAll built code = true := by
  induction code generalizing built with
  | nil => rfl
  | cons c rest ih =>
    obtain ⟨hc, hr⟩ := List.forall_mem_cons.mp h
    rw [constructsFirstAll, hc built (List.Subset.refl _), Bool.true_and]
    exact ih fun d hd now hn => hr d hd now (List.Subset.trans (List.subset_append_left _ _) hn)

theorem mem_built_of_constructsFirst (h : constructsFirst built c = true) (hx : x ∈ c.instances) : x ∈ built := by
  cases c with
  | withClients clients body => cases hx
  | _ => exact List.contains_iff_mem.mp (List.all_eq_true.mp h x hx)

theorem mem_of_constructsFirstAll (h : constructsFirstAll built code = true) (hc : c ∈ code)
    (hx : x ∈ c.instances) : x ∈ built ∨ x ∈ constructedAll code := by
  induction code generalizing built with
  | nil => cases hc
  | cons d rest ih =>
    rw [constructsFirstAll, Bool.and_eq_true] at h
    rw [constructedAll, List.mem_append]
    rcases List.mem_cons.mp hc with rfl | hc
    · exact Or.inl (mem_built_of_constructsFirst h.1 hx)
    · rcases ih h.2 hc with hx | hx
      · exact (List.mem_append.mp hx).imp_right Or.inl
      · exact Or.inr (Or.inr hx)

theorem inner_eq_nil (h : c.pieces = [c]) : c.inner = [] := by
  rw [pieces_eq] at h
  have hnil : piecesAll c.inner = [] := (List.cons.inj h).2
  refine List.eq_nil_iff_forall_not_mem.mpr fun d hd => ?_
  have hmem := mem_piecesAll_of_mem hd
  rw [hnil] at hmem
  cases hmem

theorem isFrame_of_body? {body : List Code} (h : c.body? = some body) : c.isFrame = false := by
  cases c with
  | toolFunction name description body => rfl
  | _ => cases h

end Code

namespace Program

def bodies (p : Program) : List (List Code) :=
  p.pieces.filterMap Code.body?

/-- In the body of each function the instances are constructed that it refers to, before it does. -/
def BuildsPerCall (p : Program) : Prop :=
  ∀ body ∈ p.bodies, Code.constructsFirstAll [] body = true

instance (p : Program) : Decidable p.BuildsPerCall :=
  inferInstanceAs (Decidable (∀ body ∈ p.bodies, _ = true))

end Program

end AgentWorkflow

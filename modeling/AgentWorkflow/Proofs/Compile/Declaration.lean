import AgentWorkflow.Proofs.Compile.Emissions
import AgentWorkflow.Proofs.Compile.Preservation

/-!
How parts are declared, whatever the expanders.

Main statements: a part whose name is known is made when it is demanded for the first time, and then a fragment is
emitted that declares it and binds its name, unless an expander of the caller's own made the code; a part that was
demanded before is not made again.
-/

namespace AgentWorkflow

open Drafting

/-- Clients and custom tools are demanded at the top level. -/
def Demand.IsPlaced (q : Demand) : Prop :=
  q.part = .client ∨ q.part = .customTool → q.place = .topLevel

namespace Blueprint

section Definitions

variable (b : Blueprint) (expanders : Expanders)

/-- The name by which other code uses the part that is demanded. -/
def partName (q : Demand) : Except CompileError String :=
  match q.part with
  | .construction => b.instanceVariable q.id
  | .wrapper => b.name q.id .tool
  | .client => b.name q.id .client
  | .customTool =>
    match b.toolbox.get? q.id with
    | none => .error (.internal (.unknownCustomTool q.id))
    | some custom => b.toolFunction q.id custom

/-- Declares the part that is demanded and gives its name. -/
def declare (build : Build) (q : Demand) : Drafting String :=
  match q.part with
  | .construction => b.declareInstance build q.id q.place
  | .wrapper => b.declareWrapper build q.id q.place
  | .client => b.declareClient q.id
  | .customTool => b.declareCustomTool q.id

/-- The code that constructs a node's instance comes from an expander of the caller's own. -/
def HasOwnExpander (id : String) : Prop :=
  ∃ n pattern expand, b.node id = .ok n ∧ n.kind.pattern? = some pattern ∧ expanders pattern = .custom expand

/-- A fragment declares a part and binds its name. Code from an expander of the caller's own may bind other names. -/
def Declares (q : Demand) (f : Fragment) : Prop :=
  f.declares q.part q.id = true ∧ ((∃ name, b.partName q = .ok name ∧ name ∈ Code.bindsAll f.code) ∨
    q.part = .construction ∧ b.HasOwnExpander expanders q.id)

/-- A fragment that declares a part was emitted where the part was demanded. -/
def IsDeclared (q : Demand) (d : Draft) : Prop :=
  ∃ f, (q.place, f) ∈ d.emitted ∧ b.Declares expanders q f

end Definitions

variable {b : Blueprint} {expanders : Expanders} {build : Build} {bound : ℕ} {q : Demand} {d : Draft}
  {id name : String} {place : Place} {n : Node}

section Bindings

theorem instanceVariable_eq (hn : b.node id = .ok n) : b.instanceVariable id = b.name id n.kind.instanceRole := by
  rw [instanceVariable, hn]
  rfl

theorem agentCode_binds {settings : AgentSettings} {delegates : List String} {coordination : Option String}
    (hname : b.name n.id .agent = .ok name) : (b.agentCode n settings delegates coordination).Leaves d
      (fun code _ => name ∈ Code.bindsAll code) fun _ => True := by
  refine leaves_ofExcept fun ident _ => leaves_ofExcept fun model _ => leaves_ofExcept fun own hown => ?_
  obtain rfl := Except.ok.inj (hname.symm.trans hown)
  refine leaves_skip fun tools _ => leaves_skip fun _ _ => ?_
  exact List.mem_pair.mpr (Or.inr rfl)

theorem dependencyGraph_binds {builder : String} {members : List String} {limits : List Limit} :
    (b.dependencyGraph build builder name members limits place).Leaves d
      (fun code _ => name ∈ Code.bindsAll code) fun _ => True := by
  refine leaves_skip fun declared _ => leaves_skip fun _ _ => ?_
  refine Code.mem_bindsAll.mpr ⟨.build name builder, ?_, List.mem_singleton_self _⟩
  simp

theorem swarmCode_binds {settings : SwarmSettings} (hvar : b.instanceVariable n.id = .ok name) :
    (b.swarmCode build n settings place).Leaves d (fun code _ => name ∈ Code.bindsAll code) fun _ => True := by
  rw [swarmCode_eq]
  split_ifs
  · trivial
  · refine leaves_skip fun names _ => leaves_skip fun entry _ => leaves_skip fun _ _ => ?_
    refine leaves_ofExcept fun own hown => ?_
    obtain rfl := Except.ok.inj (hvar.symm.trans hown)
    exact List.mem_singleton_self _

theorem containerCode_binds {settings : ContainerSettings} (hname : b.name n.id .graph = .ok name) :
    (b.containerCode build n settings place).Leaves d (fun code _ => name ∈ Code.bindsAll code) fun _ => True := by
  rw [containerCode_eq]
  split_ifs
  · trivial
  · refine leaves_ofExcept fun builder _ => leaves_ofExcept fun own hown => ?_
    obtain rfl := Except.ok.inj (hname.symm.trans hown)
    exact dependencyGraph_binds

theorem patternCode_binds {pattern : Pattern} (hp : n.kind.pattern? = some pattern) (hn : b.node n.id = .ok n)
    (hvar : b.instanceVariable n.id = .ok name) :
    (b.patternCode build pattern n place).Leaves d (fun code _ => name ∈ Code.bindsAll code) fun _ => True := by
  have hname : b.name n.id n.kind.instanceRole = .ok name := (instanceVariable_eq hn).symm.trans hvar
  unfold patternCode
  cases hk : n.kind with
  | agent settings =>
    rw [hk] at hp hname
    obtain rfl := Option.some.inj hp
    exact agentCode_binds hname
  | orchestrator settings =>
    rw [hk] at hp hname
    obtain rfl := Option.some.inj hp
    dsimp only
    rw [orchestratorCode_eq]
    exact leaves_skip fun _ _ => leaves_skip fun delegates _ => agentCode_binds hname
  | swarm settings =>
    rw [hk] at hp
    obtain rfl := Option.some.inj hp
    exact swarmCode_binds hvar
  | container settings =>
    rw [hk] at hp hname
    obtain rfl := Option.some.inj hp
    exact containerCode_binds hname
  | _ => simp [hk, NodeKind.pattern?] at hp

theorem expandWithin_binds (hid : ∀ {id n}, b.index.node? id = some n → n.id = id)
    (hown : ¬b.HasOwnExpander expanders id) (hvar : b.instanceVariable id = .ok name) :
    (b.expandWithin expanders bound id place).Leaves d (fun code _ => name ∈ Code.bindsAll code) fun _ => True := by
  cases bound with
  | zero => trivial
  | succ bound =>
    refine leaves_ofExcept fun n hn => ?_
    obtain rfl : n.id = id := by
      unfold node at hn
      split at hn
      · exact Except.ok.inj hn ▸ hid ‹_›
      · cases hn
    cases hp : n.kind.pattern? with
    | none => trivial
    | some pattern =>
      cases hx : expanders pattern with
      | standard =>
        simp only [hx]
        exact patternCode_binds hp hn hvar
      | custom expand => exact absurd ⟨n, pattern, expand, hn, hp, hx⟩ hown

end Bindings

/-- How a part with a name is declared: a fragment is made of it when it is demanded for the first time. -/
structure Makes (b : Blueprint) (expanders : Expanders) (build : Build) (q : Demand) (name : String)
    (make : Drafting Fragment) : Prop where
  partName_eq : b.partName q = .ok name
  declare_eq : b.declare build q = (do
    once q make
    return name)
  declares : ∀ d, make.Leaves d (fun f _ => b.Declares expanders q f) fun _ => True
  preserves : ∀ inv, (∀ features, (use features).Preserves inv) → (∀ place, (take place).Preserves inv) →
    (∀ id place, (build id place).Preserves inv) → (q.part ≠ .client → ∀ id, (b.declareClient id).Preserves inv) →
    make.Preserves inv

section Makes

variable (hid : ∀ {id n}, b.index.node? id = some n → n.id = id)

include hid in
theorem makes_construction (hvar : b.instanceVariable id = .ok name) :
    b.Makes expanders (b.expandWithin expanders bound) ⟨id, place, .construction⟩ name (do
      let code ← b.expandWithin expanders bound id place
      let node ← ofExcept (b.node id)
      return ⟨node.kind.instanceFragment, some id, code⟩) where
  partName_eq := hvar
  declare_eq := ofExcept_bind hvar _
  declares d := by
    have hcode : (b.expandWithin expanders bound id place).Leaves d (fun code _ =>
        name ∈ Code.bindsAll code ∨ b.HasOwnExpander expanders id) fun _ => True := by
      by_cases hown : b.HasOwnExpander expanders id
      · exact (leaves_trivial _ d).mono (fun _ _ _ => Or.inr hown) fun _ h => h
      · exact (expandWithin_binds hid hown hvar).mono (fun _ _ h => Or.inl h) fun _ h => h
    apply leaves_bind.mpr
    refine hcode.mono (fun code d' hbinds => ?_) fun _ h => h
    refine leaves_ofExcept fun n _ => ?_
    refine ⟨?_, hbinds.imp (fun h => ⟨name, hvar, h⟩) fun h => ⟨rfl, h⟩⟩
    cases n.kind <;> simp [Fragment.declares, Part.kinds, NodeKind.instanceFragment]
  preserves _ _ _ hbuild _ := .bind (hbuild id place) fun _ => .bind .ofExcept fun _ => .pure

theorem makes_wrapper (hname : b.name id .tool = .ok name) :
    b.Makes expanders build ⟨id, place, .wrapper⟩ name (do
      let code ← b.wrapperCode build id place
      use [.tool]
      return ⟨.wrapper, some id, [code]⟩) where
  partName_eq := hname
  declare_eq := ofExcept_bind hname _
  declares d := by
    have hcode (d : Draft) : (b.wrapperCode build id place).Leaves d (fun c _ => name ∈ c.binds) fun _ => True := by
      refine leaves_ofExcept fun n _ => leaves_ofExcept fun own hown => ?_
      obtain rfl := Except.ok.inj (hname.symm.trans hown)
      refine leaves_skip fun code _ => leaves_skip fun inside _ => leaves_ofExcept fun var _ => ?_
      dsimp only
      split_ifs
      · exact leaves_skip fun clients _ => List.mem_singleton_self _
      · exact List.mem_singleton_self _
    apply leaves_bind.mpr
    refine (hcode d).mono (fun c d' hbinds => ?_) fun _ h => h
    refine leaves_skip fun _ _ => ⟨by simp [Fragment.declares, Part.kinds], Or.inl ⟨name, hname, ?_⟩⟩
    exact Code.mem_bindsAll.mpr ⟨c, List.mem_singleton_self _, hbinds⟩
  preserves inv huse htake hbuild hclient := by
    have hcode : (b.wrapperCode build id place).Preserves inv := by
      refine .bind .ofExcept fun n => .bind .ofExcept fun own => .bind (hbuild id _) fun code => ?_
      refine .bind (htake _) fun inside => .bind .ofExcept fun var => ?_
      dsimp only
      split_ifs
      · exact .bind (.mapM fun s _ => hclient (by simp) s) fun clients => .pure
      · exact .pure
    exact .bind hcode fun _ => .bind (huse _) fun _ => .pure

theorem makes_client (hname : b.name id .client = .ok name) :
    b.Makes expanders build ⟨id, .topLevel, .client⟩ name (do
      let node ← ofExcept (b.node id)
      match node.kind with
      | .server settings =>
        match settings.fault? with
        | some fault => fail (.badServer node.displayName fault)
        | none =>
          let code := [Code.client name settings]
          use (code.flatMap Code.features)
          return ⟨.client, some id, code⟩
      | _ => failInternal (.notServer node.displayName)) where
  partName_eq := hname
  declare_eq := ofExcept_bind hname _
  declares d := by
    refine leaves_ofExcept fun n _ => ?_
    split
    · split
      · trivial
      · refine leaves_skip fun _ _ => ⟨by simp [Fragment.declares, Part.kinds], Or.inl ⟨name, hname, ?_⟩⟩
        exact List.mem_singleton_self _
    · trivial
  preserves _ huse _ _ _ := by
    refine .bind .ofExcept fun n => ?_
    split
    · split
      · exact .fail
      · exact .bind (huse _) fun _ => .pure
    · exact .fail

theorem makes_customTool {custom : CustomCode} (hc : b.toolbox.get? id = some custom)
    (hname : b.toolFunction id custom = .ok name) :
    b.Makes expanders build ⟨id, .topLevel, .customTool⟩ name (do
      use [.tool]
      return ⟨.customTool, some id, ← ofExcept (b.customToolCode id name custom)⟩) where
  partName_eq := by
    rw [partName, hc]
    exact hname
  declare_eq := by
    unfold declare declareCustomTool
    simp only [hc]
    exact ofExcept_bind hname _
  declares d := by
    refine leaves_skip fun _ _ => leaves_ofExcept fun code hcode => ?_
    refine ⟨by simp [Fragment.declares, Part.kinds], Or.inl ⟨name, ?_, ?_⟩⟩
    · rw [partName, hc]
      exact hname
    · unfold customToolCode at hcode
      split at hcode
      · obtain rfl := Except.ok.inj hcode
        exact List.mem_cons_self
      · cases hn : b.node id with
        | error e =>
          rw [hn] at hcode
          cases hcode
        | ok n =>
          rw [hn] at hcode
          obtain rfl := Except.ok.inj hcode
          exact List.mem_singleton_self _
  preserves _ huse _ _ _ := .bind (huse _) fun _ => .bind .ofExcept fun _ => .pure

theorem declare_eq_fail {e : CompileError} (h : b.partName q = .error e) :
    b.declare build q = Drafting.fail e := by
  obtain ⟨id, place, part⟩ := q
  cases part with
  | construction => exact ofExcept_bind_error h _
  | wrapper => exact ofExcept_bind_error h _
  | client => exact ofExcept_bind_error h _
  | customTool =>
    unfold declare declareCustomTool
    unfold partName at h
    dsimp only at h ⊢
    cases hc : b.toolbox.get? id with
    | none =>
      rw [hc] at h
      obtain rfl := Except.error.inj h
      rfl
    | some custom =>
      rw [hc] at h
      exact ofExcept_bind_error h _

include hid in
theorem exists_makes (hq : q.IsPlaced) (h : b.partName q = .ok name) :
    ∃ make, b.Makes expanders (b.expandWithin expanders bound) q name make := by
  obtain ⟨id, place, part⟩ := q
  cases part with
  | construction => exact ⟨_, makes_construction hid h⟩
  | wrapper => exact ⟨_, makes_wrapper h⟩
  | client =>
    obtain rfl : place = .topLevel := hq (Or.inl rfl)
    exact ⟨_, makes_client h⟩
  | customTool =>
    obtain rfl : place = .topLevel := hq (Or.inr rfl)
    cases hc : b.toolbox.get? id with
    | none => simp [partName, hc] at h
    | some custom =>
      rw [partName, hc] at h
      exact ⟨_, makes_customTool hc h⟩

end Makes

section Runs

variable {make : Drafting Fragment} (hm : b.Makes expanders build q name make)

include hm

theorem Makes.run_again (hq : q ∈ d.demands) :
    (b.declare build q).run d = ((.ok name, d) : Except Failure String × Draft) := by
  rw [hm.declare_eq, run_bind, once, run_bind, run_isFirst, if_pos hq]
  rfl

/-- What is demanded for the first time is recorded, then made, and then emitted. -/
theorem Makes.run_first (hq : q ∉ d.demands) :
    (b.declare build q).run d =
      match (make.run { d with demands := q :: d.demands } : Except Failure Fragment × Draft) with
      | (.ok f, d') => ((.ok name, d'.emit q.place f) : Except Failure String × Draft)
      | (.error failure, d') => (.error failure, d') := by
  rw [hm.declare_eq, run_bind, once, run_bind, run_isFirst, if_neg hq]
  dsimp only
  rw [if_pos rfl, run_bind]
  rcases (make.run { d with demands := q :: d.demands } : Except Failure Fragment × Draft) with ⟨_ | _, _⟩ <;> rfl

theorem Makes.declared {own : String} {d' : Draft} (hq : q ∉ d.demands)
    (hr : (b.declare build q).run d = ((.ok own, d') : Except Failure String × Draft)) :
    own = name ∧ ∃ (f : Fragment) (before : Draft), d' = before.emit q.place f ∧ b.Declares expanders q f := by
  rw [hm.run_first hq] at hr
  have hdeclares := hm.declares { d with demands := q :: d.demands }
  unfold Leaves at hdeclares
  rcases hmake : (make.run { d with demands := q :: d.demands } : Except Failure Fragment × Draft) with ⟨_ | f, before⟩
  · rw [hmake] at hr
    cases hr
  · rw [hmake] at hr hdeclares
    obtain ⟨hname, hd⟩ := Prod.mk.inj hr
    exact ⟨(Except.ok.inj hname).symm, f, before, hd.symm, hdeclares⟩

end Runs

end Blueprint

end AgentWorkflow

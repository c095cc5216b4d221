import AgentWorkflow.Entries
import AgentWorkflow.Graph.Index
import AgentWorkflow.Naming.Identifier
import AgentWorkflow.Naming.Role

/-!
The identifiers of a program's nodes.

Each node that needs names gets one identifier, and its names are the identifier with the suffix of
their role. An identifier is made from the node's label. The root keeps it bare unless it is reserved;
another node whose identifier is shared or reserved adds the end of its id, and where that clashes too
a number.
-/

namespace AgentWorkflow

/-- The identifiers allotted, in order. -/
structure SymbolTable where
  idents : List (String × String)
  deriving DecidableEq, Repr

namespace SymbolTable

def empty : SymbolTable := ⟨[]⟩

/-- Whether a node of this kind needs names. -/
def needsSymbol : NodeKind → Bool
  | .agent _ | .orchestrator _ | .swarm _ | .container _ | .customTool _ | .server _ => true
  | _ => false

/-- The identifier that a node would have alone. -/
def baseIdent (n : Node) : String :=
  if Text.isBlankText n.label then n.kind.slug else Identifier.ofLabel n.label

/-- The nodes that get identifiers, the root first. -/
def order (g : Graph) (root : Option String) : List Node :=
  (root.bind g.node?).toList ++
    g.nodes.filter fun n => needsSymbol n.kind ∧ some n.id ≠ root

/-- The identifier that would give the program's synthetic root its name. -/
def syntheticIdent : String := "workflow"

/-- Whether no node may have an identifier: it is the synthetic root's, or one of its names is
reserved. -/
def isReserved (reserved : List String) (ident : String) : Bool :=
  ident == syntheticIdent || NameRole.all.any fun role => reserved.contains (ident ++ role.suffix)

/-- The identifiers that a node may get, given the one it would have: that one, and then numbered ones.
Each one that is not free is reserved or taken, so `count` of them are enough if it exceeds what is. -/
def candidates (ident : String) (count : Nat) : List String :=
  ident :: (List.range count).map fun i => ident ++ "_" ++ toString (i + 2)

def firstFree (reserved taken : List String) (ident : String) : String :=
  let count := reserved.length + taken.length + 2
  ((candidates ident count).find? fun c => !(taken.contains c || isReserved reserved c)).getD ident

/-- The identifier of a node, given those taken before. -/
def allot (nodes : List Node) (root : Option String) (reserved taken : List String) (n : Node) :
    String :=
  let base := baseIdent n
  let shared := 1 < nodes.countP fun m => baseIdent m == base
  let bare := !isReserved reserved base && (!shared || some n.id == root) && !taken.contains base
  firstFree reserved taken (if bare then base else base ++ "_" ++ Identifier.idSuffix n.id)

/-- Allots identifiers to nodes in order. The first list holds the identifiers taken. -/
def allotAll (nodes : List Node) (root : Option String) (reserved : List String) :
    List String → List (String × String) → List Node → List (String × String)
  | _, idents, [] => idents
  | taken, idents, n :: rest =>
    let ident := allot nodes root reserved taken n
    allotAll nodes root reserved (ident :: taken) (Entries.put n.id ident idents) rest

def build (g : Graph) (root : Option String) (reserved : List String) : SymbolTable :=
  let nodes := order g root
  ⟨allotAll nodes root reserved [] [] nodes⟩

def ident? (t : SymbolTable) (id : String) : Option String :=
  Entries.get? id t.idents

def name? (t : SymbolTable) (id : String) (role : NameRole) : Option String :=
  (t.ident? id).map (· ++ role.suffix)

/-- The number of nodes with identifiers. -/
def size (t : SymbolTable) : Nat := t.idents.length

end SymbolTable

end AgentWorkflow

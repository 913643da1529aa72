import ContractModel.Syntax.Node

/-! # Flattened syntax trees

The nodes of a tree in breadth-first order, found by identifier. An object without an identifier is
left out with all that is below it, and so are the external references of inline assembly.
-/

namespace ContractModel

/-- Nodes with distinct identifiers. -/
structure FlatTree where
  nodes : List Node
  nodup : (nodes.map Node.id).Nodup

namespace FlatTree

def empty : FlatTree := ⟨[], .nil⟩

instance : EmptyCollection FlatTree := ⟨empty⟩
instance : Inhabited FlatTree := ⟨empty⟩

def get? (t : FlatTree) (id : Int) : Option Node := t.nodes.find? fun n => n.id = id

def contains (t : FlatTree) (id : Int) : Bool := t.nodes.any fun n => n.id = id

/-- Puts a node in the place of the one with its identifier, or behind all others. -/
def insertNode (n : Node) : List Node → List Node
  | [] => [n]
  | m :: ms => if m.id = n.id then n :: ms else m :: insertNode n ms

theorem mem_insertNode_id {n : Node} {ms : List Node} {id : Int}
    (h : id ∈ (insertNode n ms).map Node.id) : id = n.id ∨ id ∈ ms.map Node.id := by
  induction ms with
  | nil => simpa [insertNode] using h
  | cons m ms ih => grind [insertNode]

theorem nodup_insertNode {n : Node} {ms : List Node} (h : (ms.map Node.id).Nodup) :
    ((insertNode n ms).map Node.id).Nodup := by
  induction ms with
  | nil => simp [insertNode]
  | cons m ms ih =>
    obtain ⟨hm, hms⟩ := List.nodup_cons.1 (show (m.id :: ms.map Node.id).Nodup from h)
    unfold insertNode
    split
    · next heq => exact List.nodup_cons.2 ⟨heq ▸ hm, hms⟩
    · next hne =>
      refine List.nodup_cons.2 ⟨fun hmem => ?_, ih hms⟩
      rcases mem_insertNode_id hmem with h | h
      · exact hne h
      · exact hm h

def insert (t : FlatTree) (n : Node) : FlatTree :=
  ⟨insertNode n t.nodes, nodup_insertNode t.nodup⟩

/-- A value that may be a node, with the contract that encloses it. -/
abbrev Candidate := Json × Option String

/-- What a field holds: an object, or the items of an array. -/
def fieldValues : Json → List Json
  | .array js => js
  | .object ms => [.object ms]
  | _ => []

/-- The values below a node, one level of arrays deep. -/
def below (n : Node) : List Candidate :=
  n.fields.flatMap fun f =>
    if n.is "InlineAssembly" && f.1 == "externalReferences" then []
    else (fieldValues f.2).map fun j => (j, n.contractForChildren)

/-- The nodes of one level of the tree and then those of the levels below it. -/
def levels (lang : Language) : Nat → List Candidate → List Node
  | 0, _ => []
  | depth + 1, cs =>
    let nodes := cs.filterMap fun c => Node.ofJson lang c.2 c.1
    nodes ++ levels lang depth (nodes.flatMap below)

/-- The nodes of a tree; of nodes with one identifier the first place and the last node. -/
def ofJson (lang : Language) (tree : Json) : FlatTree :=
  (levels lang tree.depth [(tree, none)]).foldl insert ∅

end FlatTree

end ContractModel

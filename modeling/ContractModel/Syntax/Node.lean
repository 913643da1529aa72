import ContractModel.Language
import ContractModel.Syntax.SourceRange

/-! # Nodes of syntax trees

A node is an object with an identifier. It is stamped with the contract that encloses it, which its
children inherit unless the node defines a contract itself.
-/

namespace ContractModel

/-- An integer, as a number or as its text. -/
def Json.asId? : Json → Option Int
  | .string s => (Text.readInt s).toOption
  | j => j.asInt?

structure Node where
  id : Int
  kind : String
  contract : Option String
  lang : Language
  fields : Json.Members
  deriving Repr

namespace Node

def ofJson (lang : Language) (contract : Option String) (j : Json) : Option Node := do
  let fields ← j.asObject?
  let id ← (← fields.lookup lang.nodeIdKey).asId?
  let kind := ((fields.lookup lang.nodeKindKey).bind Json.asString?).getD ""
  return ⟨id, kind, contract, lang, fields⟩

/-- A field that is not `null`. -/
def get? (n : Node) (key : String) : Option Json :=
  (n.fields.lookup key).filter fun j => !j.isNull

def string? (n : Node) (key : String) : Option String := (n.get? key).bind Json.asString?
def bool? (n : Node) (key : String) : Option Bool := (n.get? key).bind Json.asBool?
def int? (n : Node) (key : String) : Option Int := (n.get? key).bind Json.asId?

/-- The items of a field that is an array, otherwise none. -/
def items (n : Node) (key : String) : List Json := ((n.get? key).bind Json.asArray?).getD []

def is (n : Node) (kind : String) : Bool := n.kind == kind

def isContractDefinition (n : Node) : Bool := n.is n.lang.contractKind

def isLibrary (n : Node) : Bool := n.string? "contractKind" == some "library"

def isTypeDefinition (n : Node) : Bool :=
  n.is "StructDefinition" || n.is "EnumDefinition" || n.is "UserDefinedValueTypeDefinition"

def name? (n : Node) : Option String := n.string? "name"

/-- The name, empty if there is none. -/
def name (n : Node) : String := n.name?.getD ""

def src? (n : Node) : Option SourceRange :=
  (n.string? "src").bind fun s => (SourceRange.parse s).toOption

def typeString? (n : Node) : Option String := do
  ((← n.get? "typeDescriptions").get? "typeString").bind Json.asString?

def referencedDeclaration? (n : Node) : Option Int := n.int? "referencedDeclaration"

/-- The contract that encloses the children of the node. -/
def contractForChildren (n : Node) : Option String :=
  if n.isContractDefinition then n.name? else n.contract

/-- The node in a field. -/
def child? (n : Node) (key : String) : Option Node :=
  (n.get? key).bind (ofJson n.lang n.contractForChildren)

/-- The nodes among the items of a field. -/
def children (n : Node) (key : String) : List Node :=
  (n.items key).filterMap (ofJson n.lang n.contractForChildren)

theorem sizeOf_lookup {fields : Json.Members} {key : String} {j : Json}
    (h : fields.lookup key = some j) : sizeOf j < sizeOf fields := by
  induction fields with
  | nil => simp at h
  | cons f fs ih =>
    obtain ⟨k, v⟩ := f
    rw [List.lookup_cons] at h
    split at h
    · cases h; simp +arith
    · have := ih h; simp; omega

theorem get?_eq_some {n : Node} {key : String} {j : Json} (h : n.get? key = some j) :
    n.fields.lookup key = some j := by
  simp [get?, Option.filter_eq_some_iff] at h
  exact h.1

theorem fields_of_ofJson {lang : Language} {contract : Option String} {j : Json} {n : Node}
    (h : ofJson lang contract j = some n) : j = .object n.fields := by
  unfold ofJson at h
  cases j <;> simp [Json.asObject?, Option.bind_eq_some_iff] at h
  obtain ⟨_, _, _, _, rfl⟩ := h
  rfl

/-- A child holds less than its parent, so recursion along children ends. -/
theorem sizeOf_child {n c : Node} {key : String} (h : n.child? key = some c) :
    sizeOf c.fields < sizeOf n.fields := by
  obtain ⟨j, hj, hc⟩ := Option.bind_eq_some_iff.1 h
  have h₁ := sizeOf_lookup (get?_eq_some hj)
  have h₂ := fields_of_ofJson hc
  subst h₂
  simp at h₁
  omega

end Node

end ContractModel

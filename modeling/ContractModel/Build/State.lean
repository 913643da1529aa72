import ContractModel.Compilation.Compiler
import ContractModel.Config
import ContractModel.Link.Address
import ContractModel.Model.Unit
import ContractModel.Syntax.Inheritance

/-! # The state of a build

A build works on the file tree, the index of syntax trees and the model. It may fail at any point,
and what it did until then stays done.
-/

namespace ContractModel

/-- What a build is made with. -/
structure BuildSetting where
  config : Config
  compiler : Compiler
  /-- The finders that the user gives, by contract and symbol. -/
  finders : SortedMap String (SortedMap String Json)

structure BuildState where
  files : FileTree
  index : SyntaxIndex
  model : BuildModel
  book : AddressBook
  /-- The addresses linked into bytecode that no unit lists yet. -/
  linkedLibraries : List String
  nextFinder : Nat
  findersFailed : Bool
  /-- The instrumented copies written. -/
  copies : List String
  /-- The compiler outputs written. -/
  outputs : List String
  /-- What the compiler was asked, in order. -/
  requests : List CompilerRequest

namespace BuildState

def start (files : FileTree) : BuildState where
  files := files
  index := .empty
  model := ∅
  book := .empty
  linkedLibraries := []
  nextFinder := 0
  findersFailed := false
  copies := []
  outputs := []
  requests := []

end BuildState

abbrev Build := ExceptT Error (StateM BuildState)

namespace Build

variable {α : Type}

def input : Except InputFault α → Build α
  | .ok a => pure a
  | .error fault => throw (.input fault)

def tool : Except ToolFault α → Build α
  | .ok a => pure a
  | .error fault => throw (.tool fault)

/-- Asks the index. -/
def query (q : Query α) : Build α := do
  let (r, index) := q.run.run (← get).index
  modify fun s => { s with index := index }
  ofExcept r

/-- Asks the compiler. -/
def request (setting : BuildSetting) (r : CompilerRequest) : Build r.Answer := do
  let s ← get
  set { s with requests := s.requests ++ [r] }
  tool (setting.compiler.answer s.files s.requests r)

/-- Changes the file tree. -/
def onFiles (failure : FileFault → Error) (change : FileTree → Except FileFault FileTree) :
    Build Unit := do
  match change (← get).files with
  | .ok files => modify fun s => { s with files := files }
  | .error fault => throw (failure fault)

def onModel (change : BuildModel → BuildModel) : Build Unit :=
  modify fun s => { s with model := change s.model }

end Build

end ContractModel

import ContractModel.Compilation.Settings
import ContractModel.FileTree

/-! # Compiler input

What a compilation is asked with: one source, by place or by content, and the settings.
-/

namespace ContractModel

structure InputSource where
  urls : Option (List String)
  content : Option String
  deriving DecidableEq, Repr

namespace InputSource

def json (s : InputSource) : Json :=
  .object (Json.member? "urls" Json.ofStrings s.urls ++
    Json.member? "content" .string s.content)

end InputSource

structure CompilerInput where
  lang : Language
  sources : SortedMap String InputSource
  settings : Settings

namespace CompilerInput

/-- The compiler reads a Solidity source itself; a Vyper source is sent along. -/
def ofPath (files : FileTree) (lang : Language) (path : String) (settings : Settings) :
    Except ToolFault CompilerInput := do
  let source ←
    match lang with
    | .solidity => pure ⟨some [path], none⟩
    | .vyper =>
      match files.readText path with
      | .ok content => pure ⟨none, some content⟩
      | .error fault => throw (.sourceReading path fault)
  return ⟨lang, SortedMap.ofList [(path, source)], settings⟩

def json (i : CompilerInput) : Json :=
  .object [("language", i.lang.json), ("sources", Json.ofMap InputSource.json i.sources),
    ("settings", i.settings.json)]

end CompilerInput

end ContractModel

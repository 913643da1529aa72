import ContractModel.Instrument.Copies
import ContractModel.Syntax.Index
import ContractModel.Text.Blank
import ContractModel.Text.Utf8

/-! # Redirecting imports

A source that imports an edited one has to import its copy instead, which makes it an edited source
too. Directives are redirected from the edited sources backwards until none is left.
-/

namespace ContractModel.Redirect

/-- An import directive and the source it stands in. -/
structure Directive where
  importer : String
  node : Node

/-- The normal path that a directive imports. -/
def targetOf (current importer : String) (n : Node) : Except InstrumentError String :=
  match n.string? "absolutePath" with
  | some path => .ok (Path.normalize current path)
  | none => .error (.importDirective importer n.id .noAbsolutePath)

/-- The directives of a compilation with the paths they import, in order. -/
def directives (ts : Trees) (current root : String) :
    Except InstrumentError (List (String × Directive)) :=
  let all := (ts.unitsOf root).entries.flatMap fun (file, t) =>
    (t.nodes.filter fun n => n.is "ImportDirective").map fun n => (⟨file, n⟩ : Directive)
  all.mapM fun d => do return (← targetOf current d.importer d.node, d)

/-- The text in the braces behind the first `import` that has some, if any. -/
def symbolList : List Char → Option (List Char)
  | [] => none
  | c :: cs =>
    let here : Option (List Char) := do
      let behind ← List.isPrefixOf? "import".toList (c :: cs)
      let list ← List.isPrefixOf? ['\x7b'] (behind.dropWhile Text.isBlank)
      let symbols := list.takeWhile (· ≠ '\x7d')
      if !(behind.head?.map Text.isBlank).getD false || symbols.isEmpty ||
          symbols.length = list.length then none
      else some symbols
    here.or (symbolList cs)

/-- The symbols of a directive as its source lists them. -/
def symbolsInSource (files : FileTree) (d : Directive) : Except InstrumentError (List String) := do
  let fail (fault : ImportFault) : InstrumentError := .importDirective d.importer d.node.id fault
  let src ← match d.node.src? with
    | some src => pure src
    | none => throw (fail .noSourceRange)
  let source ← match files.read d.importer with
    | .ok source => pure source
    | .error fault => throw (.file d.importer fault)
  if source.length < src.start + src.length then throw (fail .rangeOutOfBounds)
  let text := Text.decodeLossy ((source.drop src.start).take src.length)
  match symbolList text.toList with
  | none => throw (fail .noSymbolList)
  | some list =>
    let symbols := (Text.splitOnChar ',' list).map fun s => String.ofList (Text.trimChars s)
    return symbols.filter fun s => !s.isEmpty

/-- The symbols of a directive; where the tree has only identifiers, the source is read. -/
def symbols (files : FileTree) (d : Directive) :
    List String → List Json → Except InstrumentError (List String)
  | found, [] => .ok found
  | found, symbol :: rest =>
    let fail (fault : ImportFault) : InstrumentError := .importDirective d.importer d.node.id fault
    match symbol.get? "foreign" with
    | none => .error (fail .noForeignSymbol)
    | some (.number (.int _)) => symbolsInSource files d
    | some foreign =>
      match (foreign.get? "name").bind Json.asString? with
      | none => .error (fail .unknownForeignSymbol)
      | some name =>
        let text :=
          match (symbol.get? "local").bind Json.asString? with
          | some localName => name ++ " as " ++ localName
          | none => name
        symbols files d (found ++ [text]) rest

/-- The edit that makes a directive import the copy, and its offset. -/
def editOf (files : FileTree) (d : Directive) : Except InstrumentError (Nat × Edit) := do
  let fail (fault : ImportFault) : InstrumentError := .importDirective d.importer d.node.id fault
  let copy := Copies.pathOf (← targetOf files.current d.importer d.node)
  let src ← match d.node.src? with
    | some src => pure src
    | none => throw (fail .noSourceRange)
  let unitAlias := (d.node.string? "unitAlias").getD ""
  let symbolAliases := d.node.items "symbolAliases"
  if !unitAlias.isEmpty && !symbolAliases.isEmpty then throw (fail .bothAliases)
  let payload ←
    if !symbolAliases.isEmpty then do
      let list ← symbols files d [] symbolAliases
      pure ("import \x7b " ++ String.intercalate ", " list ++ " \x7d from '" ++ copy ++ "';")
    else if !unitAlias.isEmpty then pure ("import '" ++ copy ++ "' as " ++ unitAlias ++ ";")
    else pure ("import '" ++ copy ++ "';")
  return (src.start, ⟨0x69, payload, .replace src.length⟩)

/-- Edits that stay when a directive cannot be redirected. -/
abbrev Redirecting := ExceptT InstrumentError (StateM SourceEdits)

/-- Redirects one directive; the result is the source it stands in. -/
def redirect (files : FileTree) (d : Directive) : Redirecting String := do
  let importer := Path.normalize files.current d.importer
  match editOf files d with
  | .error e => throw e
  | .ok (offset, e) =>
    let edits ← get
    let script := edits.getD importer ∅
    if script.contains offset then throw (.conflict d.importer offset)
    set (edits.insert importer (script.insert offset e))
    return importer

/-- Adds a source that was not reached before, also to those still to be visited. -/
def reach (state : List String × List String) (path : String) : List String × List String :=
  if state.1.contains path then state else (state.1 ++ [path], state.2 ++ [path])

/-- Visits the waiting sources in order, at most the given number of them. -/
def visit (files : FileTree) (all : List (String × Directive)) :
    Nat → List String → List String → Redirecting Unit
  | 0, _, _ => pure ()
  | _, _, [] => pure ()
  | steps + 1, reached, path :: waiting => do
    let importers ← ((all.filter fun d => d.1 = path).map Prod.snd).mapM (redirect files)
    let (reached, added) := importers.foldl reach (reached, [])
    visit files all steps reached (waiting ++ added)

/-- Redirects all directives that import an edited source. Every source is visited once, and there
is at most one for each path edited before and one for each directive. -/
def imports (files : FileTree) (ts : Trees) (root : String) : Redirecting Unit := do
  match directives ts files.current root with
  | .error e => throw e
  | .ok all =>
    let edited := (← get).keys
    visit files all (edited.length + all.length + 1) edited edited

end ContractModel.Redirect

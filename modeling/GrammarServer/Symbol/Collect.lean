import GrammarServer.Symbol.Definition

/-!
# The symbols of a statement

The definitions that a statement gives and the references that it makes, in the order of the text.
Statements that override or extend a definition give none of their own. References inside a group
in parentheses are not collected.
-/
namespace GrammarServer.Node

/-! ## Definitions -/

def symbolKind : Node → Except Fault Kind
  | token t => .ok t.symbolKind
  | n => .error (.noField n.kind "type")

def nameRange : Node → Except Fault Range
  | token t => .ok (t.range true)
  | n => .error (.noField n.kind "value")

/-- The name that an alias gave to a part; a part that has no field for it may have none. -/
def givenName : Node → Except Fault Node
  | expansion _ _ name => .ok name
  | imports _ _ _ name => .ok name
  | named name _ => .ok name
  | n => .error (.noField n.kind "alias")

def directed (directive : Directive) (statement : Node) (range : Range) (symbol : Node) :
    Except Fault Definition := do
  let kind ← symbol.symbolKind
  let selection ← symbol.nameRange
  return { name := symbol.toText, kind, range, selection, directives := ⟨[directive]⟩,
           node := statement }

def aliasDefinitions (container : Definition) : List Node → Except Fault (List Definition)
  | [] => .ok []
  | x :: rest => do
    let name ← x.givenName
    if name.isPresent then
      let selection ← name.nameRange
      let others ← aliasDefinitions container rest
      return { name := name.toText, kind := some .rule, range := .ofExtent x.extent, selection,
               node := container.node, container := some container.name } :: others
    else aliasDefinitions container rest

mutual

/-- Whether a value is a list or a tree with a list in it, and so cannot be looked up. -/
def holdsList : Node → Bool
  | list _ => true
  | tree _ _ children => anyHoldsList children
  | _ => false

def anyHoldsList : List Node → Bool
  | [] => false
  | n :: rest => holdsList n || anyHoldsList rest

end

def addModifiers (d : Definition) : List Node → Except Fault Definition
  | [] => .ok d
  | n :: rest =>
    if n.holdsList then .error (.notHashable "list")
    else
      let sign := match n.text? with
        | some s => Modifiers.ofSign s
        | none => .none
      addModifiers { d with modifiers := d.modifiers.union sign } rest

def addParameters (d : Definition) (range : Range) : List Node → Except Fault Definition
  | [] => .ok d
  | n :: rest => do
    let selection ← n.nameRange
    addParameters
      (d.addChild { name := n.toText, kind := some .rule, range, selection, node := d.node })
      range rest

def definitions (statement : Node) : Except Fault (List Definition) :=
  match statement with
  | declare e symbols => symbols.mapM (directed .declared statement (.ofExtent e))
  | imports e _ symbols name => do
    let range := Range.ofExtent e
    if name.isPresent then
      let d ← directed .imported statement range name
      let sources ← (← symbols.elements).mapM (directed .imported statement range)
      return [sources.foldl Definition.addChild d]
    else (← symbols.elements).mapM (directed .imported statement range)
  | rule e modifiers name parameters _ expansions => do
    let range := Range.ofExtent e
    let selection ← name.nameRange
    let d : Definition :=
      { name := name.toText, kind := some .rule, range, selection, node := statement }
    let d ← addParameters d range (← parameters.elements)
    let d ← addModifiers d (← modifiers.elements)
    return d :: (← aliasDefinitions d expansions)
  | term e modifiers name _ expansions => do
    let selection ← name.nameRange
    let d : Definition :=
      { name := name.toText, kind := some .terminal, range := .ofExtent e, selection,
        node := statement }
    let d ← addModifiers d (modifiers.map text)
    return d :: (← aliasDefinitions d expansions)
  | _ => return []

/-! ## References -/

/-- The statement that references are about, unless one is given already. -/
def orSelf (about self : Node) : Node :=
  match about with
  | absent => self
  | _ => about

mutual

/-- The references in a node. They are about the statement given, or else about the node itself
if it is a statement. -/
def references (about : Node) : Node → Except Fault (List Reference)
  | token t =>
    .ok (if t.kind == "RULE" || t.kind == "TERMINAL" then [t.reference about] else [])
  | declare e symbols => referencesInAll (about.orSelf (declare e symbols)) symbols
  | ignore e expansions => referencesInAll (about.orSelf (ignore e expansions)) expansions
  | imports e path symbols name => do
    let about := about.orSelf (imports e path symbols name)
    let used ← referencesInParts about symbols
    let given ← references about name
    return if name.isPresent then used ++ given else used
  | override e definition => references (about.orSelf (override e definition)) definition
  | extend e definition => references (about.orSelf (extend e definition)) definition
  | templateUsage _ applied arguments => do
    let called ← references about applied
    let used ← referencesInAll about arguments
    return called ++ used
  | maybe _ expansions => referencesInAll about expansions
  -- the atom of a group is a plain list, in which nothing is looked for
  | expr _ atom _ => references about atom
  | expansion _ expressions name => do
    let used ← referencesInAll about expressions
    let given ← references about name
    return if name.isPresent then used ++ given else used
  | term e modifiers name priority expansions => do
    let about := about.orSelf (term e modifiers name priority expansions)
    let called ← references about name
    let used ← referencesInAll about expansions
    return called ++ used
  | rule e modifiers name parameters priority expansions => do
    let about := about.orSelf (rule e modifiers name parameters priority expansions)
    let called ← references about name
    let params ← referencesInParts about parameters
    let used ← referencesInAll about expansions
    return called ++ params ++ used
  | named _ part => references about part
  | _ => .ok []

def referencesInParts (about : Node) : Node → Except Fault (List Reference)
  | list items => referencesInAll about items
  | file _ statements => referencesInAll about statements
  | text _ | token _ => .ok []
  | n => .error (.notIterable n.kind)

def referencesInAll (about : Node) : List Node → Except Fault (List Reference)
  | [] => .ok []
  | n :: rest => do
    let here ← references about n
    let others ← referencesInAll about rest
    return here ++ others

end

end GrammarServer.Node

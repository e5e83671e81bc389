import GrammarServer.Loading.Body
import GrammarServer.Text.Capital
import GrammarServer.Text.Identifier

/-!
# Names for patterns

A pattern in a rule stands for a terminal. It is the terminal defined by that pattern, the last one
if there are several; else a new one, named for the text that it matches if the name is free, and
numbered if not.
-/
namespace GrammarServer.Loading

def signNames : List (String × String) :=
  [(".", "DOT"), (",", "COMMA"), (":", "COLON"), (";", "SEMICOLON"), ("+", "PLUS"),
   ("-", "MINUS"), ("*", "STAR"), ("/", "SLASH"), ("\\", "BACKSLASH"), ("|", "VBAR"),
   ("?", "QMARK"), ("!", "BANG"), ("@", "AT"), ("#", "HASH"), ("$", "DOLLAR"), ("%", "PERCENT"),
   ("^", "CIRCUMFLEX"), ("&", "AMPERSAND"), ("_", "UNDERSCORE"), ("<", "LESSTHAN"),
   (">", "MORETHAN"), ("=", "EQUAL"), ("\"", "DBLQUOTE"), ("'", "QUOTE"), ("`", "BACKQUOTE"),
   ("~", "TILDE"), ("(", "LPAR"), (")", "RPAR"), ("\x7b", "LBRACE"), ("\x7d", "RBRACE"),
   ("[", "LSQB"), ("]", "RSQB"), ("\n", "NEWLINE"), ("\r\n", "CRLF"), ("\t", "TAB"),
   (" ", "SPACE")]

/-- The text that code points write, if all of them are characters. -/
def textOf? (codes : List Nat) : Option String :=
  if codes.all fun n => n.isValidChar then some (String.ofList (codes.map Char.ofNat)) else none

def Pattern.wantedName? (p : Pattern) : Option String :=
  if p.isText then
    (textOf? p.value).bind fun text =>
      match signNames.lookup text with
      | some name => some name
      | none => if Text.isIdentifier text then some (Text.capitals text) else none
  else none

/-- The terminals that have names, the last one first, and how many names are mere numbers. -/
structure Naming where
  known : List (Pattern × String)
  numbered : Nat := 0

namespace Naming

def ofTerminals (terminals : List (String × Pattern)) : Naming :=
  { known := (terminals.map fun (name, p) => (p, name)).reverse }

def name? (n : Naming) (p : Pattern) : Option String := n.known.lookup p

def isTaken (n : Naming) (name : String) : Bool := n.known.any fun entry => entry.2 == name

def add (n : Naming) (p : Pattern) : Naming :=
  match n.name? p with
  | some _ => n
  | none =>
    match p.wantedName?.filter fun name => !n.isTaken name with
    | some name => { n with known := (p, name) :: n.known }
    | none =>
      { n with known := (p, "__ANON_" ++ toString n.numbered) :: n.known
               numbered := n.numbered + 1 }

def addBody (n : Naming) (b : Body) : Naming :=
  (b.parts false).foldl (fun n part =>
    match part with
    | .pattern (.ok p) => n.add p
    | _ => n) n

end Naming

def instanceName (template : String) (arguments : List String) : String :=
  template ++ "\x7b" ++ ",".intercalate arguments ++ "\x7d"

namespace Body

def symbolName : Body → String
  | symbol s => s.name
  | _ => ""

mutual

/-- A body in which patterns and used templates have become symbols. Texts leave nothing in a tree
unless all terminals are kept. -/
def toSymbols (n : Naming) (keepsAll : Bool) : Body → Body
  | symbol s => symbol s
  | pattern (.ok p) => symbol (.terminal ((n.name? p).getD "") (p.isText && !keepsAll))
  | pattern (.error refusal) => pattern (.error refusal)
  | usage template arguments =>
    symbol (.rule (instanceName template ((allToSymbols n keepsAll arguments).map symbolName)))
  | choice alternatives => choice (allToSymbols n keepsAll alternatives)
  | sequence parts => sequence (allToSymbols n keepsAll parts)
  | naming part name => naming (toSymbols n keepsAll part) name
  | optional part => optional (toSymbols n keepsAll part)
  | marked part mark => marked (toSymbols n keepsAll part) mark
  | times part bounds => times (toSymbols n keepsAll part) bounds

def allToSymbols (n : Naming) (keepsAll : Bool) : List Body → List Body
  | [] => []
  | b :: rest => toSymbols n keepsAll b :: allToSymbols n keepsAll rest

end

mutual

/-- A body in which parameters stand for what is given for them. -/
def substitute (given : List (String × Body)) : Body → Body
  | symbol s => (given.lookup s.name).getD (symbol s)
  | pattern p => pattern p
  | usage template arguments =>
    usage (((given.lookup template).map symbolName).getD template)
      (substituteAll given arguments)
  | choice alternatives => choice (substituteAll given alternatives)
  | sequence parts => sequence (substituteAll given parts)
  | naming part name => naming (substitute given part) name
  | optional part => optional (substitute given part)
  | marked part mark => marked (substitute given part) mark
  | times part bounds => times (substitute given part) bounds

def substituteAll (given : List (String × Body)) : List Body → List Body
  | [] => []
  | b :: rest => substitute given b :: substituteAll given rest

end

end Body

end GrammarServer.Loading

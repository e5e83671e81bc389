import GrammarServer.Loading.Terminals

/-!
# Uses of names

Every name that a definition uses must be defined or be one of its parameters, and every template
must get as many arguments as it has parameters.
-/
namespace GrammarServer.Loading.Book

/-- The obstacle that the parameters of a template are, given those already seen. -/
def parameterObstacle (b : Book) (template : String) (seen : List String) :
    List String → Option Refusal
  | [] => none
  | p :: rest =>
    if b.defines p then some (.parameterIsRule p template)
    else if seen.contains p then some (.parameterTwice p template)
    else b.parameterObstacle template (seen ++ [p]) rest

def templateObstacle (b : Book) (e : Entry) (name : String) (given : Nat) : Option Refusal :=
  if e.parameters.contains name then none
  else
    match b.find? name with
    | none => some (.undefinedTemplate name e.isTerminal e.name)
    | some template =>
      if given == template.parameters.length then none
      else some (.argumentCount name template.parameters.length given e.isTerminal e.name)

def nameObstacle (b : Book) (e : Entry) (name : String) : Option Refusal :=
  if b.defines name || e.parameters.contains name then none
  else some (.undefinedUse name e.isTerminal e.name)

/-- The first obstacle in an entry. The body of a terminal has been resolved by now. -/
def entryObstacle (b : Book) (e : Entry) : Option Refusal :=
  b.parameterObstacle e.name [] e.parameters
    <|> e.body?.bind fun body =>
          let body := if e.isTerminal then b.resolved b.depth body else body
          (body.usages.findSome? fun (name, given) => b.templateObstacle e name given)
            <|> (body.names false).findSome? (b.nameObstacle e)

def ignoredObstacle (b : Book) : Option Refusal :=
  match (b.ignored.filter fun name => !b.defines name).eraseDups with
  | [] => none
  | names => some (.undefinedIgnored names)

def useObstacle (b : Book) : Option Refusal :=
  b.entries.findSome? b.entryObstacle <|> b.ignoredObstacle

end GrammarServer.Loading.Book

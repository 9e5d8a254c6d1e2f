import TypedPipeline.Operator

/-!
# Grammar: rules from which pipelines are derived

A grammar gives a name an ordered list of productions. A production combines operators and further
names; deriving replaces names by their productions until only operators are left. This file fixes:

* productions (`Expr`), their written form and the names they refer to;
* grammars (`Grammar`), which list the names that have productions in ascending order;
* the check that every name referred to has productions (`Grammar.validate`).
-/

namespace TypedPipeline

/-! ## 1. Productions -/

/-- The right-hand side of a rule. -/
inductive Expr where
  | terminal (op : Operator)
  | nonterminal (name : String)
  | combine (combinator : Combinator) (children : List Expr)

instance : Inhabited Expr := ⟨.nonterminal ""⟩

namespace Expr

mutual

/-- The names referred to, from left to right. -/
def references : Expr → List String
  | .terminal _ => []
  | .nonterminal name => [name]
  | .combine _ children => referencesOf children

def referencesOf : List Expr → List String
  | [] => []
  | child :: rest => child.references ++ referencesOf rest

end

mutual

def text : Expr → String
  | .terminal op => op.name
  | .nonterminal name => "<" ++ name ++ ">"
  | .combine combinator children =>
    "(" ++ String.intercalate combinator.separator (texts children) ++ ")"

def texts : List Expr → List String
  | [] => []
  | child :: rest => child.text :: texts rest

end

end Expr

/-! ## 2. Grammars -/

structure Grammar where
  /-- The name that derivations start from. -/
  start : String
  /-- The productions of each name that has any. -/
  rules : Keyed (List Expr) := []

namespace Grammar

/-- The productions of a name, in order. -/
def productions (g : Grammar) (name : String) : List Expr := (g.rules.find? name).getD []

def nonterminals (g : Grammar) : List String := Keyed.names g.rules

/-- The name has a rule. -/
def has (g : Grammar) (name : String) : Bool := g.rules.has name

/-- Add a production behind those that the name has. -/
def addProduction (g : Grammar) (name : String) (production : Expr) : Grammar :=
  { g with rules := g.rules.put name (g.productions name ++ [production]) }

def addProductions (g : Grammar) (name : String) (productions : List Expr) : Grammar :=
  productions.foldl (fun g production => g.addProduction name production) g

/-- The first name without a rule that a production refers to. -/
def undefined? (g : Grammar) (production : Expr) : Option String :=
  production.references.find? fun name => !g.has name

/-- The first production, in the order of the rules, that refers to a name without a rule. -/
def undefinedReference? (g : Grammar) : Option GrammarFault :=
  g.rules.findSome? fun rule => rule.2.findSome? fun production =>
    (g.undefined? production).map fun missing => .undefined production.text rule.1 missing

/-- The start and every name referred to have productions. -/
def validate (g : Grammar) : Except Fault Unit :=
  if (g.productions g.start).isEmpty then .error (.grammar (.noProductions g.start))
  else match g.undefinedReference? with
    | some fault => .error (.grammar fault)
    | none => .ok ()

end Grammar

end TypedPipeline

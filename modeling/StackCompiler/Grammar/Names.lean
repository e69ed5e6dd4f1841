import StackCompiler.Grammar.Reading

/-!
# Grammar/Names — declaring and reading names

A function sees its own locals and the package-level variables that were declared **before** it.  A
name that neither holds may still be read: it becomes a placeholder, to be bound later.  Strings
are kept once each, in the order of their first use.
-/

namespace StackCompiler.Grammar

namespace Reading

/-- Whether the variable of that number has that name. -/
def isNamed (r : Reading) (name : String) (id : VarId) : Bool :=
  r.vars[id]?.any (·.name == name)

/-- The declared variable that a name stands for at this point. -/
def lookup? (r : Reading) (name : String) : Option VarId :=
  (r.scope.bind fun locals => locals.find? (r.isNamed name)) <|> r.globals.find? (r.isNamed name)

/-- The reading with one more variable in its arena. -/
def addVariable (r : Reading) (name : String) (ty : Ty) (loc : Nat) (placeholder : Bool) :
    Reading :=
  { r with
    vars := r.vars ++ [⟨name, 0, r.scope.isSome, ty, loc, placeholder⟩] }

/-- The reading with a variable listed as a local, or as a global outside of functions. -/
def listed (r : Reading) (id : VarId) : Reading :=
  match r.scope with
  | some locals => { r with scope := some (locals ++ [id]) }
  | none => { r with globals := r.globals ++ [id] }

end Reading

/-- Declares a name where it is not declared yet. -/
def declare (name : String) (ty : Ty) (loc : Nat) : Parser VarId := do
  let r ← get
  if (r.lookup? name).isSome then refuse (.redeclared name) loc
  set ((r.addVariable name ty loc false).listed r.vars.length)
  return r.vars.length

/-- Reads a name, which **need not be declared**. -/
def readName (name : String) (loc : Nat) : Parser Expr := do
  let r ← get
  match r.lookup? name with
  | some id => return .var id .unknown loc
  | none =>
    set (r.addVariable name .unknown loc true)
    return .var r.vars.length .unknown loc

/-- The variable of that number. -/
def variableOf (id : VarId) : Parser Variable := do
  match (← get).vars[id]? with
  | some v => return v
  | none => broken .noSuchVariable

/-- The number of a string in the table, to which it is added if it is new. -/
def intern (s : String) : Parser Nat := do
  let r ← get
  match r.strings.idxOf? s with
  | some i => return i
  | none =>
    set { r with strings := r.strings ++ [s] }
    return r.strings.length

end StackCompiler.Grammar

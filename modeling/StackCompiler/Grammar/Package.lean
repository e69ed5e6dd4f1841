import StackCompiler.Grammar.Statements

/-!
# Grammar/Package — reading a whole source

A source names its package and then declares functions and variables in any order.  The program
that is read starts with an **implicit function**, which runs the initial assignments of the
package-level variables in their order and returns the value of a call of `main`.
-/

namespace StackCompiler.Grammar

/-- The function that a run of the program ends in. -/
def mainName : String := "main"

/-- Reads a parameter, which is no array. -/
def parameter : Parser VarId := do
  let (name, loc) ← identifier
  let ty ← type
  if ty.isArray then refuse .arrayParameter loc
  declare name ty loc

/-- Reads a function whose name is none of those `taken`.  A result type is read and **dropped**. -/
def function (taken : List String) : Parser Function := do
  let loc ← expect "func"
  let (name, nameLoc) ← identifier
  if name ∈ taken then refuse (.functionRedeclared name) nameLoc
  modify fun r => { r with scope := some [] }
  let _ ← expect "("
  let params ← listUntil ")" parameter
  if ← typeAhead then
    let _ ← type
  let body ← block
  let locals := (← get).scope.getD []
  modify fun r => { r with scope := none }
  return ⟨name, params, locals, body, 0, false, loc⟩

/-- The function that runs the initial assignments and calls the user's `main`. -/
def implicitFunction (inits : List Stmt) : Function :=
  ⟨"init", [], [], inits ++ [.ret (some (.call mainName [] .unknown 0)) 0], 0, true, 0⟩

/-- What a package has declared so far: its functions, and the initial assignments. -/
structure Declared where
  funcs : List Function
  inits : List Stmt

/-- Reads a declaration of the package, or finds the end of the source. -/
def packageRound (declared : Declared) : Parser (Round Declared Declared) := do
  if ← accept ";" then return .again declared
  if ← atEnd then return .done declared
  if ← ahead "func" then
    let f ← function (declared.funcs.map (·.name))
    return .again { declared with funcs := declared.funcs ++ [f] }
  if ← ahead "var" then
    let init ← declaration
    return .again (if init.isEmpty then declared
      else { declared with inits := declared.inits ++ [init] })
  unexpected .declaration

/-- Reads a package. -/
def package : Parser Program := do
  let _ ← expect "package"
  let (name, _) ← identifier
  let declared ← iterate packageRound ⟨[], []⟩
  let r ← get
  return ⟨name, r.vars, r.globals, r.strings, implicitFunction declared.inits :: declared.funcs⟩

end StackCompiler.Grammar

namespace StackCompiler

/-- The program that the tokens of a source spell. -/
def Program.ofTokens (source : List Char) (tokens : List Token) : Except Failure Program :=
  return ((← (Grammar.package.run (.start source tokens))).1)

end StackCompiler

import StackCompiler.Typing.Statements

/-!
# Typing/Package — types and frames in a program

Functions are typed in the order of the program, over **one arena**, so what a function tells about
a package-level variable holds for those after it.  A frame is laid out in three steps: the
parameters, the locals as the body assigns to them, and the locals that are left.
-/

namespace StackCompiler

namespace Typing

/-- The type of the variable of that number. -/
def tyOf (vars : List Variable) (id : VarId) : Ty :=
  vars[id]?.elim .unknown (·.ty)

/-- What calls of the function have to agree with. -/
def signatureOf (vars : List Variable) (f : Function) : Signature :=
  ⟨f.name, f.params.map (tyOf vars)⟩

/-- Checks that the parameters fit into the registers for arguments. -/
def checkParameters (vars : List Variable) (f : Function) : Except Failure Unit :=
  let words := Ty.totalWords (f.params.map (tyOf vars))
  if maxArgumentWords < words then refuse (.parameterWords f.name words) f.loc else return

/-- How far the slots of the locals reach. -/
def reach (vars : List Variable) (locals : List VarId) : Int :=
  (locals.map fun id => vars[id]?.elim 0 (·.offset)).foldl max 0

/-- The bytes that frames are multiples of. -/
def frameAlignment : Int := 16

/-- The function with its types, and its frame. -/
def typedFunction (globals : List VarId) (signatures : List Signature) (f : Function) :
    Layout Function := do
  modify fun slots => { slots with taken := reach slots.vars f.locals }
  f.params.forM place
  let body ← typedStmts ⟨f.locals, globals, signatures⟩ f.body
  f.locals.forM place
  match Word.alignUp? (← get).taken frameAlignment with
  | none => refuse (.frameTooLarge f.name) f.loc
  | some frame => return { f with body := body, frame := frame }

/-- Checks that a package-level variable has got a type. -/
def checkGlobal (vars : List Variable) (id : VarId) : Except Failure Unit := do
  let v ← variableOf vars id
  if !v.ty.isResolved then refuse (.uninferable v.name) v.loc

end Typing

/-- The program with its types and frames.  **A second run may add types**: a name that was read
before it had one gets it then. -/
def Program.resolve (p : Program) : Except Failure Program := do
  p.declared.forM (Typing.checkParameters p.vars)
  let signatures := p.declared.map (Typing.signatureOf p.vars)
  let (funcs, slots) ← (p.funcs.mapM (Typing.typedFunction p.globals signatures)).run ⟨p.vars, 0⟩
  p.globals.forM (Typing.checkGlobal slots.vars)
  return { p with vars := slots.vars, funcs := funcs }

end StackCompiler

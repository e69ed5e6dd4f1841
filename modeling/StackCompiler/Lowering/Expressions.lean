import StackCompiler.Lowering.Code
import StackCompiler.Syntax.Program

/-!
# Lowering/Expressions — code for expressions

The code of an expression leaves its value on the stack, a string as **two words**: its address, and
on top of it its length.  Of an expression that denotes a place, the code can leave the address
instead; the value is then loaded from there.
-/

namespace StackCompiler.Lowering

/-! ## Loading and storing -/

/-- Replaces the address on the stack by the value of that type that stands there. -/
def load : Ty → Code
  | .array _ _ => .nothing
  | .string => .ofInstrs [.pop .rax, .pushAt (.above .rax 0), .pushAt (.above .rax 8)]
  | .int8 => .ofInstrs [.pop .rax, .loadSigned .rax (.above .rax 0), .push .rax]
  | .bool => .ofInstrs [.pop .rax, .loadByte .rax (.above .rax 0), .push .rax]
  | _ => .ofInstrs [.pop .rax, .load .rax (.above .rax 0), .push .rax]

/-- Stores the value under the address on the stack, and **leaves the value**. -/
def store (ty : Ty) : Code :=
  if ty.isString then
    .ofInstrs [.pop .rax, .pop .rsi, .pop .rdi, .store (.above .rax 0) .rdi,
      .store (.above .rax 8) .rsi, .push .rdi, .push .rsi]
  else if ty.size = 1 then
    .ofInstrs [.pop .rax, .pop .rdi, .storeByte (.above .rax 0) .rdi, .push .rdi]
  else
    .ofInstrs [.pop .rax, .pop .rdi, .store (.above .rax 0) .rdi, .push .rdi]

/-! ## Addresses -/

/-- Leaves an address on the stack. -/
def pushAddress (a : Address) : Code :=
  .ofInstrs [.address .rax a, .push .rax]

/-- Leaves the address of a variable. -/
def variableAddress (p : Program) (id : VarId) : Code :=
  match p.vars[id]? with
  | none => .broken .noSuchVariable
  | some v =>
    if v.isLocal then pushAddress (.frame v.offset)
    else pushAddress (.data (.symbol (p.symbol v.name)))

/-- Leaves the address of a string's descriptor. -/
def descriptorAddress (p : Program) (string : Nat) : Code :=
  if string < p.strings.length then pushAddress (.data (.descriptor string))
  else .broken .noSuchString

/-- Adds the position on the stack to the address under it, in elements of that type. -/
def step (element : Ty) : Code :=
  .ofInstrs ([.pop .rdi] ++ (if element.size = 1 then [] else [.scale .rdi element.size]) ++
    [.pop .rax, .add .rax .rdi, .push .rax])

/-! ## Operations -/

/-- What `rax` and `rdi` are combined by, with the result in `rax`. -/
def combine : BinaryOp → List Instr
  | .add => [.add .rax .rdi]
  | .sub => [.sub .rax .rdi]
  | .mul => [.mul .rax .rdi]
  | .div => [.spreadSign, .divSigned .rdi]
  | .eq => compared .equal
  | .ne => compared .notEqual
  | .lt => compared .less
  | .le => compared .lessEqual
where
  compared (relation : Relation) : List Instr :=
    [.compare .rax .rdi, .setIf relation .rax, .widen .rax]

/-- Replaces the operands on the stack by the result of an operation. -/
def operate (op : BinaryOp) : Code :=
  .ofInstrs ([.pop .rdi, .pop .rax] ++ combine op ++ [.push .rax])

/-- The registers of arguments, in their order. -/
def argumentRegs : List Reg := [.rdi, .rsi, .rdx, .rcx, .r8, .r9]

/-- Takes the words of arguments off the stack into their registers, **the last word first**. -/
def popArguments (words : Nat) : Code :=
  if words ≤ argumentRegs.length then
    .ofInstrs ((argumentRegs.take words).reverse.map .pop)
  else
    .broken .noRegister

/-! ## Expressions -/

/-- What code leaves on the stack. -/
inductive Wanted where
  | value
  | address
deriving DecidableEq, Repr, Inhabited

/-- What turns an address into what is wanted. -/
def fromAddress (ty : Ty) : Wanted → Code
  | .value => load ty
  | .address => .nothing

/-- Code for an expression that is **no place**, so that only its value can be wanted. -/
def valueOnly (wanted : Wanted) (code : Code) : Code :=
  match wanted with
  | .value => code
  | .address => .broken .noAddress

mutual

/-- The code of an expression. -/
def exprCode (p : Program) (wanted : Wanted) : Expr → Code
  | .num value _ _ => valueOnly wanted (.ofInstrs [.set .rax value, .push .rax])
  | .str string ty _ => descriptorAddress p string ++ fromAddress ty wanted
  | .var id ty _ => variableAddress p id ++ fromAddress ty wanted
  | .addr operand _ _ => valueOnly wanted (exprCode p .address operand)
  | .deref operand ty _ => exprCode p .value operand ++ fromAddress ty wanted
  | .binary op lhs rhs _ _ =>
    valueOnly wanted (exprCode p .value lhs ++ exprCode p .value rhs ++ operate op)
  | .index base position ty _ =>
    let start :=
      match base.ty with
      | .array _ _ => exprCode p .address base
      | .string =>
        exprCode p .address base ++
          .ofInstrs [.pop .rax, .load .rax (.above .rax 0), .push .rax]
      | _ => exprCode p .value base
    start ++ exprCode p .value position ++ step ty ++ fromAddress ty wanted
  | .call name args _ _ =>
    valueOnly wanted
      (exprsCode p args ++ popArguments (Ty.totalWords (args.map Expr.ty)) ++
        .call (.symbol (p.symbol name)) ++ .ofInstrs [.push .rax])

/-- The code of expressions, from the first to the last. -/
def exprsCode (p : Program) : List Expr → Code
  | [] => .nothing
  | e :: es => exprCode p .value e ++ exprsCode p es

end

end StackCompiler.Lowering

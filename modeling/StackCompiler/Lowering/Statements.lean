import StackCompiler.Lowering.Expressions

/-!
# Lowering/Statements — code for statements

A statement leaves the stack as high as it found it.  Each branch and each loop has a number for its
labels: the statements of a body share out the numbers above a `base`, and **a statement takes as
many as it has branches and loops** (`labelCount`).
-/

namespace StackCompiler

mutual

/-- The branches and loops in a statement. -/
def Stmt.labelCount : Stmt → Nat
  | .block body => labelCounts body
  | .branch init _ body otherwise =>
    init.labelCount + 1 + labelCounts body + otherwise.labelCount
  | .loop init _ post body _ => init.labelCount + 1 + labelCounts body + post.labelCount
  | .expr _ | .ret _ _ | .assign _ _ _ | .print _ _ _ | .empty => 0

/-- The branches and loops in a sequence of statements. -/
def Stmt.labelCounts : List Stmt → Nat
  | [] => 0
  | stmt :: stmts => stmt.labelCount + labelCounts stmts

end

namespace Lowering

/-! ## Parts of statements -/

/-- Goes to the target unless the condition holds. -/
def unlessCode (p : Program) (cond : Expr) (target : Label) : Code :=
  exprCode p .value cond ++
    .ofInstrs [.pop .rax, .compareConst .rax 0, .jumpIf .equal target]

/-- Leaves the function whose end is at `exit`, with the value in `rax` and, of a string, its
length in `rdx`. -/
def returnCode (p : Program) (exit : Label) : Option Expr → Code
  | none => .ofInstrs [.jump exit]
  | some value =>
    exprCode p .value value ++
      .ofInstrs ((if value.ty.isString then [.pop .rdx] else []) ++ [.pop .rax, .jump exit])

/-- Stores the value on the stack in the target and takes it off. -/
def storeCode (p : Program) (target : Expr) : Code :=
  exprCode p .address target ++ store target.ty ++ .discard target.ty.words

/-- Stores the values on the stack in the targets, **the last one first**. -/
def storesCode (p : Program) : List Expr → Code
  | [] => .nothing
  | target :: targets => storesCode p targets ++ storeCode p target

/-- Prints one value. -/
def printCode (p : Program) (arg : Expr) : Code :=
  exprCode p .value arg ++
    if arg.ty.isString then
      .ofInstrs [.pop .rsi, .pop .rdi] ++ .call (.routine .printString)
    else
      .ofInstrs [.pop .rdi] ++ .call (.routine .printInt)

/-- Prints the values after the first. -/
def printsCode (p : Program) (printer : Printer) : List Expr → Code
  | [] => .nothing
  | arg :: args =>
    (if printer = .println then .call (.routine .printSpace) else .nothing) ++
      printCode p arg ++ printsCode p printer args

/-- Prints the values; `println` puts blanks between them and **a newline at the end**. -/
def printingCode (p : Program) (printer : Printer) (args : List Expr) : Code :=
  (match args with
    | [] => .nothing
    | arg :: args => printCode p arg ++ printsCode p printer args) ++
  if printer = .println then .call (.routine .printNewline) else .nothing

/-! ## Statements -/

mutual

/-- The code of a statement in the function that ends at `exit`; its labels have numbers above
`base`. -/
def stmtCode (p : Program) (exit : Label) (base : Nat) : Stmt → Code
  | .expr value => exprCode p .value value ++ .discard value.ty.words
  | .ret value _ => returnCode p exit value
  | .block body => stmtsCode p exit base body
  | .branch init cond body otherwise =>
    let own := base + init.labelCount + 1
    stmtCode p exit base init ++ unlessCode p cond (.elseOf own) ++
      stmtsCode p exit own body ++ .ofInstrs [.jump (.endOf own)] ++
      .label (.elseOf own) ++ stmtCode p exit (own + Stmt.labelCounts body) otherwise ++
      .label (.endOf own)
  | .loop init cond post body _ =>
    let own := base + init.labelCount + 1
    stmtCode p exit base init ++ .label (.beginOf own) ++
      (cond.elim .nothing fun cond => unlessCode p cond (.endOf own)) ++
      stmtsCode p exit own body ++ stmtCode p exit (own + Stmt.labelCounts body) post ++
      .ofInstrs [.jump (.beginOf own)] ++ .label (.endOf own)
  | .assign targets values _ => exprsCode p values ++ storesCode p targets
  | .print printer args _ => printingCode p printer args
  | .empty => .nothing

/-- The code of a sequence of statements. -/
def stmtsCode (p : Program) (exit : Label) (base : Nat) : List Stmt → Code
  | [] => .nothing
  | stmt :: stmts =>
    stmtCode p exit base stmt ++ stmtsCode p exit (base + stmt.labelCount) stmts

end

end Lowering

end StackCompiler

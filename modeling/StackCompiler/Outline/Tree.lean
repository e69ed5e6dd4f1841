import StackCompiler.Machine.Label
import StackCompiler.Text.Blanks
import StackCompiler.Text.Quoted

/-!
# Outline/Tree — a program in print

One line a node, indented by two blanks a level.  Variables are shown **by their place**: a local
with its slot, a package-level variable with its symbol.  What a statement leaves out has no line.
-/

namespace StackCompiler

namespace Outline

/-- A line and its level. -/
structure Row where
  level : Nat
  text : String
deriving DecidableEq, Repr

def Row.render (row : Row) : String :=
  Text.blanks (2 * row.level) ++ row.text ++ "\n"

/-- A row above the rows of what is one level deeper. -/
def node (level : Nat) (text : String) (children : List Row) : List Row :=
  ⟨level, text⟩ :: children

/-! ## Variables -/

/-- A variable with its type and its place. -/
def slot (p : Program) (v : Variable) : String :=
  v.name ++ " " ++ v.ty.text ++ " [" ++
    (if v.isLocal then "rbp-" ++ toString v.offset else (p.symbol v.name).text) ++ "]"

/-- The variable of that number, if there is one. -/
def slotOf (p : Program) (id : VarId) : String :=
  p.vars[id]?.elim "" (slot p)

/-! ## Expressions -/

/-- The form of a node and its type. -/
def headed (form : String) (ty : Ty) : String :=
  form ++ " : " ++ ty.text

mutual

def exprRows (p : Program) (level : Nat) : Expr → List Row
  | .num value ty _ => node level (headed ("num " ++ toString value.toInt) ty) []
  | .str string _ _ =>
    node level ("str " ++ Text.quote (p.strings[string]?.getD "") ++ " " ++
      (Label.string string).text) []
  | .var id _ _ => node level ("var " ++ slotOf p id) []
  | .addr operand ty _ => node level (headed "addr" ty) (exprRows p (level + 1) operand)
  | .deref operand ty _ => node level (headed "deref" ty) (exprRows p (level + 1) operand)
  | .binary op lhs rhs ty _ =>
    node level (headed ("binary " ++ op.symbol) ty)
      (exprRows p (level + 1) lhs ++ exprRows p (level + 1) rhs)
  | .index base position ty _ =>
    node level (headed "index" ty)
      (exprRows p (level + 1) base ++ exprRows p (level + 1) position)
  | .call name args ty _ =>
    node level (headed ("call " ++ (p.symbol name).text) ty) (exprsRows p (level + 1) args)

def exprsRows (p : Program) (level : Nat) : List Expr → List Row
  | [] => []
  | e :: es => exprRows p level e ++ exprsRows p level es

end

/-! ## Statements -/

mutual

def stmtRows (p : Program) (level : Nat) : Stmt → List Row
  | .expr value => node level "expr" (exprRows p (level + 1) value)
  | .ret value _ => node level "return" (value.elim [] (exprRows p (level + 1)))
  | .block body => node level "block" (stmtsRows p (level + 1) body)
  | .branch init cond body otherwise =>
    node level "if"
      ((if init.isEmpty then [] else stmtRows p (level + 1) init) ++ exprRows p (level + 1) cond ++
        node (level + 1) "block" (stmtsRows p (level + 2) body) ++
        if otherwise.isEmpty then []
        else node level "else" (stmtRows p (level + 1) otherwise))
  | .loop init cond post body _ =>
    node level "for"
      ((if init.isEmpty then [] else stmtRows p (level + 1) init) ++
        (cond.elim [] (exprRows p (level + 1))) ++
        (if post.isEmpty then [] else stmtRows p (level + 1) post) ++
        node (level + 1) "block" (stmtsRows p (level + 2) body))
  | .assign targets values _ =>
    node level "assign"
      (exprsRows p (level + 1) targets ++ node level "=" (exprsRows p (level + 1) values))
  | .print printer args _ => node level printer.name (exprsRows p (level + 1) args)
  | .empty => node level "empty" []

def stmtsRows (p : Program) (level : Nat) : List Stmt → List Row
  | [] => []
  | stmt :: stmts => stmtRows p level stmt ++ stmtsRows p level stmts

end

/-! ## Functions and packages -/

def functionRows (p : Program) (f : Function) : List Row :=
  node 0 ("func " ++ (p.functionSymbol f).text ++ "(" ++
      String.intercalate ", " (f.params.map (slotOf p)) ++ ") frame " ++ toString f.frame ++
      (if f.isImplicit then " (implicit)" else ""))
    (((f.locals.filter fun id => !f.params.contains id).map fun id =>
        ⟨1, "local " ++ slotOf p id⟩) ++
      stmtsRows p 1 f.body)

def programRows (p : Program) : List Row :=
  node 0 ("package " ++ p.package)
    (p.globals.map (fun id => ⟨0, "global " ++ slotOf p id⟩) ++ p.funcs.flatMap (functionRows p))

end Outline

/-- The program in print. -/
def Program.outline (p : Program) : String :=
  String.join ((Outline.programRows p).map Outline.Row.render)

end StackCompiler

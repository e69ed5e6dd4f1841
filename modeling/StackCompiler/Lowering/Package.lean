import StackCompiler.Lowering.Statements
import StackCompiler.Machine.Routines

/-!
# Lowering/Package — the assembly of a program

Each function enters its frame, moves its parameters from the registers into their slots, runs its
body, and **returns 0 at the end** of it.  A body that leaves the stack higher or lower than it
found it is broken.
-/

namespace StackCompiler

namespace Lowering

/-! ## Functions -/

/-- Moves a parameter from the first of the registers into its slot; a string takes two. -/
def spill (v : Variable) (regs : List Reg) : Except Fault (List Instr × List Reg) :=
  match regs with
  | [] => .error .noRegister
  | reg :: rest =>
    if v.ty.isString then
      match rest with
      | [] => .error .noRegister
      | next :: rest =>
        .ok ([.store (.frame v.offset) reg, .store (.frame (v.offset - 8)) next], rest)
    else if v.ty.size = 1 then
      .ok ([.storeByte (.frame v.offset) reg], rest)
    else
      .ok ([.store (.frame v.offset) reg], rest)

/-- Moves the parameters into their slots, **in their order**. -/
def spills (p : Program) : List VarId → List Reg → Except Fault (List Instr)
  | [], _ => return []
  | id :: ids, regs =>
    match p.vars[id]? with
    | none => .error .noSuchVariable
    | some v => do
      let (instrs, rest) ← spill v regs
      return instrs ++ (← spills p ids rest)

/-- Enters a function with a frame of so many bytes. -/
def prologue (frame : Int) : List Instr :=
  [.push .rbp, .move .rbp .rsp] ++ if 0 < frame then [.subConst .rsp frame] else []

/-- Leaves a function. -/
def epilogue : List Instr :=
  [.move .rsp .rbp, .pop .rbp, .ret]

/-- The body of a function, which has to **leave the stack as it found it**. -/
def bodyCode (p : Program) (f : Function) (base : Nat) : Except Fault Listing := do
  let symbol := p.functionSymbol f
  let body ← stmtsCode p (.returnOf symbol) base f.body 0
  if body.growth ≠ 0 then throw (.unbalanced symbol.text body.growth)
  return body

/-- The listing of a function whose labels have numbers above `base`. -/
def functionCode (p : Program) (f : Function) (base : Nat) : Except Fault Listing := do
  let symbol := p.functionSymbol f
  let params ← spills p f.params argumentRegs
  let body ← bodyCode p f base
  return .label (.symbol symbol) :: Listing.ofInstrs (prologue f.frame ++ params) ++ body ++
    .instr (.set .rax 0) :: .label (.returnOf symbol) :: Listing.ofInstrs epilogue

/-- The listings of functions, one after the other; each takes the numbers above those of the
functions before it. -/
def functionsCode (p : Program) : Nat → List Function → Except Fault Listing
  | _, [] => return []
  | base, f :: fs => do
    let code ← functionCode p f base
    return code ++ (← functionsCode p (base + Stmt.labelCounts f.body) fs)

/-! ## Data -/

/-- The zeroed place of a package-level variable, which takes **at least a byte**. -/
def globalData (p : Program) (id : VarId) : Except Fault (List Datum) :=
  match p.vars[id]? with
  | none => .error .noSuchVariable
  | some v => return [.align, .label (.symbol (p.symbol v.name)), .zeros (max v.ty.size 1)]

/-- The bytes of a text. -/
def utf8 (s : String) : List UInt8 :=
  s.toList.flatMap String.utf8EncodeChar

/-- A string and its descriptor. -/
def stringData (s : String) (index : Nat) : List Datum :=
  .label (.string index) :: (if (utf8 s).isEmpty then [] else [.bytes (utf8 s)]) ++
    [.align, .label (.descriptor index), .address (.string index), .word (utf8 s).length]

def programData (p : Program) : Except Fault (List Datum) := do
  let globals ← p.globals.mapM (globalData p)
  let strings := p.strings.zipIdx.map fun (s, index) => stringData s index
  return globals.flatten ++ strings.flatten ++ Routine.data

end Lowering

/-- The assembly of a program whose expressions have their types. -/
def Program.assemble (p : Program) : Except Fault Assembly := do
  let data ← Lowering.programData p
  let code ← Lowering.functionsCode p 0 p.funcs
  return ⟨data, .entry :: p.declared.map p.functionSymbol, Routine.all ++ code⟩

end StackCompiler

import StackCompiler.Machine.Instr

/-!
# Machine/Listing — listings and their text

A listing is a sequence of labels and instructions.  Its `growth` is what its instructions, taken
**in the order in which they are written**, add to the stack; listings one after the other add up
(`growth_append`).  An `Assembly` is the whole output: data, the symbols that others may use, and
one listing.
-/

namespace StackCompiler

inductive Line where
  | label (l : Label)
  | instr (i : Instr)
deriving DecidableEq, Repr

abbrev Listing := List Line

namespace Line

def text : Line → String
  | label l => l.text ++ ":\n"
  | instr i => "    " ++ i.text ++ "\n"

def growth : Line → Int
  | label _ => 0
  | instr i => i.growth

end Line

namespace Listing

/-- Instructions one after the other. -/
def ofInstrs (instrs : List Instr) : Listing :=
  instrs.map .instr

/-- The words by which the listing makes the stack grow from its first line to its last. -/
def growth : Listing → Int
  | [] => 0
  | line :: l => line.growth + growth l

@[simp] theorem growth_nil : growth [] = 0 := rfl

@[simp] theorem growth_cons (line : Line) (l : Listing) :
    growth (line :: l) = line.growth + growth l := rfl

/-- Growth **adds up**. -/
@[simp] theorem growth_append (l m : Listing) : growth (l ++ m) = growth l + growth m := by
  induction l with
  | nil => exact (Int.zero_add _).symm
  | cons line l ih => rw [List.cons_append, growth_cons, growth_cons, ih, Int.add_assoc]

end Listing

/-! ## Data -/

/-- The lines of a data section. -/
inductive Datum where
  | label (l : Label)
  | align
  | zeros (count : Int)
  | bytes (values : List UInt8)
  | address (l : Label)
  | word (value : Nat)
deriving DecidableEq, Repr

def Datum.text : Datum → String
  | label l => l.text ++ ":\n"
  | align => "    .balign 8\n"
  | zeros count => "    .zero " ++ toString count ++ "\n"
  | bytes values =>
    "    .byte " ++ String.intercalate ", " (values.map fun b => toString b.toNat) ++ "\n"
  | address l => "    .quad " ++ l.text ++ "\n"
  | word value => "    .quad " ++ toString value ++ "\n"

/-! ## Assembly -/

structure Assembly where
  data : List Datum
  /-- The functions that the file offers to others. -/
  exported : List Symbol
  code : Listing
deriving Repr

/-- The assembly as it is written. -/
def Assembly.text (a : Assembly) : String :=
  ".intel_syntax noprefix\n" ++
  ".data\n" ++ String.join (a.data.map Datum.text) ++
  ".text\n" ++ String.join (a.exported.map fun s => ".globl " ++ s.text ++ "\n") ++
  String.join (a.code.map Line.text) ++
  ".section .note.GNU-stack,\"\",@progbits\n"

end StackCompiler

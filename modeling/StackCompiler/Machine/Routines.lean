import StackCompiler.Machine.Listing

/-!
# Machine/Routines — the routines that print

They ask the kernel to write to the standard output, and take their arguments in the registers in
which any function does.  `printInt` lays the digits down **backwards** from the frame's base and
divides without signs, so the least number prints as well.
-/

namespace StackCompiler.Routine

/-- The constant bytes that the routines write. -/
def data : List Datum :=
  [.label .newline, .bytes [10], .label .space, .bytes [32]]

/-- Entering and leaving a routine that keeps nothing in its frame. -/
def framed (r : Routine) (body : List Instr) : Listing :=
  .label (.routine r) ::
    Listing.ofInstrs ([.push .rbp, .move .rbp .rsp] ++ body ++ [.pop .rbp, .ret])

/-- Asks the kernel to write `rdx` bytes from `rsi` on. -/
def writeOut : List Instr :=
  [.set .rdi 1, .set .rax 1, .syscall]

/-- Prints the byte at a label. -/
def printByte (r : Routine) (l : Label) : Listing :=
  r.framed ([.address .rsi (.data l), .set .rdx 1] ++ writeOut)

/-- Prints the signed number in `rdi`. -/
def printIntCode : Listing :=
  .label (.routine printInt) ::
  Listing.ofInstrs
    [.push .rbp, .move .rbp .rsp, .subConst .rsp 32, .move .rax .rdi,
      .address .rsi (.frame 1), .set .rcx 10, .xor .r8 .r8, .test .rax .rax,
      .jumpIf .notNegative .digits, .negate .rax, .set .r8 1] ++
  .label .digits ::
  Listing.ofInstrs
    [.xor .rdx .rdx, .divUnsigned .rcx, .addLow .rdx 48, .storeByte (.above .rsi 0) .rdx,
      .decrement .rsi, .test .rax .rax, .jumpIf .notZero .digits, .test .r8 .r8,
      .jumpIf .zero .write, .setByte (.above .rsi 0) 45, .decrement .rsi] ++
  .label .write ::
  Listing.ofInstrs
    ([.increment .rsi, .move .rdx .rbp, .sub .rdx .rsi] ++ writeOut ++
      [.move .rsp .rbp, .pop .rbp, .ret])

/-- Prints the `rsi` bytes from `rdi` on. -/
def printStringCode : Listing :=
  printString.framed ([.move .rdx .rsi, .move .rsi .rdi] ++ writeOut)

def code : Routine → Listing
  | printInt => printIntCode
  | printString => printStringCode
  | printSpace => printSpace.printByte .space
  | printNewline => printNewline.printByte .newline

/-- All the routines. -/
def all : Listing :=
  [printInt, printString, printSpace, printNewline].flatMap code

end StackCompiler.Routine

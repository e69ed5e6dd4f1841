import StackCompiler.Token.Lexeme

/-!
# Token/Scan — a source as a list of tokens

`tokenize` reads a source lexeme by lexeme.  Blanks and comments are dropped, a newline becomes a
token only where it **ends a statement**, and the end of the source is the last token.
-/

namespace StackCompiler

/-- The tokens of the text at byte offset `loc`, after `covered` characters that belong to the
lexeme before.  `pending` says whether a statement is open, so that a newline ends it. -/
def scan (covered : Nat) (pending : Bool) (loc : Nat) : List Char → Except Diagnostic (List Token)
  | [] => .ok [.sourceEnd loc]
  | c :: cs =>
    match covered with
    | covered + 1 => scan covered pending (loc + c.utf8Size) cs
    | 0 =>
      match Lexeme.first c cs with
      | .error cause => .error ⟨cause, loc⟩
      | .ok .blank => scan 0 pending (loc + c.utf8Size) cs
      | .ok .newline => do
        let rest ← scan 0 false (loc + c.utf8Size) cs
        return if pending then .lineEnd loc :: rest else rest
      | .ok (.comment text) => scan (text.length - 1) pending (loc + c.utf8Size) cs
      | .ok (.token kind text value) => do
        let token : Token := ⟨kind, String.ofList text, value, loc, Text.byteLength text⟩
        let rest ← scan (text.length - 1) token.closesLine (loc + c.utf8Size) cs
        return token :: rest

/-- The tokens of a source, closed by the end of the source. -/
def tokenize (source : List Char) : Except Diagnostic (List Token) :=
  scan 0 false 0 source

/-- Covered characters are **passed over**. -/
theorem scan_append (covered rest : List Char) (pending : Bool) (loc : Nat) :
    scan covered.length pending loc (covered ++ rest) =
      scan 0 pending (loc + Text.byteLength covered) rest := by
  induction covered generalizing loc with
  | nil => simp
  | cons c cs ih => simp [scan, ih, Nat.add_assoc]

example : (tokenize "x\n".toList).toOption =
    some [⟨.ident, "x", none, 0, 1⟩, .lineEnd 1, .sourceEnd 2] := by decide +kernel

end StackCompiler

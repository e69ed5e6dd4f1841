import StackCompiler.Grammar.Reading

/-!
# Grammar/Repetition — reading as long as there is something to read

Repetition and nesting are bounded by the **number of tokens that are left**: every round takes at
least one, and so does every step into the depth.
-/

namespace StackCompiler.Grammar

/-- One more than the number of tokens that are left: a bound for what takes a token each round. -/
def bound : Parser Nat :=
  return (← get).rest.length + 1

/-- Runs a parser that nests **no deeper** than there are tokens. -/
def bounded {α : Type} (parser : Nat → Parser α) : Parser α := do
  parser (← bound)

/-- What a round of a repetition leaves: a state to go on from, or a result. -/
inductive Round (σ α : Type) where
  | again (state : σ)
  | done (result : α)

def rounds {σ α : Type} (round : σ → Parser (Round σ α)) : Nat → σ → Parser α
  | 0, _ => broken .stalled
  | n + 1, state => do
    match ← round state with
    | .again state => rounds round n state
    | .done result => return result

/-- Repeats a round that takes at least one token whenever it is to be repeated. -/
def iterate {σ α : Type} (round : σ → Parser (Round σ α)) (state : σ) : Parser α :=
  bounded fun n => rounds round n state

/-- Items with commas between them. -/
def commaList {α : Type} (item : Parser α) : Parser (List α) :=
  iterate (fun items => do
    let items := items ++ [← item]
    if ← accept "," then return .again items else return .done items) []

/-- Items with commas between them up to the closing bracket, or **none at all**. -/
def listUntil {α : Type} (close : String) (item : Parser α) : Parser (List α) := do
  if ← accept close then return []
  iterate (fun items => do
    let items := items ++ [← item]
    if ← accept close then return .done items
    let _ ← expect ","
    return .again items) []

end StackCompiler.Grammar

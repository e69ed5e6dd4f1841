/-!
# CommandLine/Options — what the arguments ask for

An option is given by a long name or a short one, and its value stands after `=` or is the next
argument.  The source comes from **exactly one** of the two options that name it, and no option is
given twice.  Help and version are answered as soon as they are met.
-/

namespace StackCompiler.CommandLine

/-- The options. -/
inductive Key where
  | input | build | output | dev | help | version
deriving DecidableEq, Repr, Inhabited

namespace Key

def ofLong? (name : String) : Option Key :=
  [("in", input), ("build", build), ("output", output), ("dev", dev), ("help", help),
    ("version", version)].lookup name

def ofShort? (c : Char) : Option Key :=
  [('o', output), ('h', help), ('V', version)].lookup c

def takesValue : Key → Bool
  | input | build | output => true
  | dev | help | version => false

end Key

/-- Why arguments are not read to their end. -/
inductive Stop where
  | help
  | version
  | misuse
deriving DecidableEq, Repr

/-- The options that have been given. -/
structure Given where
  input : Option String
  build : Option String
  output : Option String
  dev : Bool
deriving DecidableEq, Repr

namespace Given

def nothing : Given := ⟨none, none, none, false⟩

/-- Gives a value to an option that **has none yet**; a path is not empty. -/
def withValue (g : Given) (key : Key) (value : String) : Except Stop Given :=
  match key, g.input, g.build, g.output with
  | .input, none, _, _ => .ok { g with input := some value }
  | .build, _, none, _ => if value = "" then .error .misuse else .ok { g with build := some value }
  | .output, _, _, none =>
    if value = "" then .error .misuse else .ok { g with output := some value }
  | _, _, _, _ => .error .misuse

/-- Gives an option that has no value. -/
def withFlag (g : Given) (key : Key) : Except Stop Given :=
  match key, g.dev with
  | .dev, false => .ok { g with dev := true }
  | .help, _ => .error .help
  | .version, _ => .error .version
  | _, _ => .error .misuse

end Given

/-! ## Arguments -/

/-- What has been read: the options, and the one that still **waits for its value**. -/
structure Progress where
  given : Given
  waiting : Option Key
deriving DecidableEq, Repr

/-- Reads the text after `--`. -/
def long (g : Given) (text : List Char) : Except Stop Progress :=
  let name := String.ofList (text.takeWhile (· != '='))
  match Key.ofLong? name, text.dropWhile (· != '=') with
  | none, _ => .error .misuse
  | some key, [] =>
    if key.takesValue then .ok ⟨g, some key⟩ else (⟨·, none⟩) <$> g.withFlag key
  | some key, _ :: value =>
    if key.takesValue then (⟨·, none⟩) <$> g.withValue key (String.ofList value)
    else .error .misuse

/-- Reads the text after a single `-`: options of one letter, of which the last may have its value
right after it. -/
def short (g : Given) : List Char → Except Stop Progress
  | [] => .ok ⟨g, none⟩
  | c :: cs =>
    match Key.ofShort? c with
    | none => .error .misuse
    | some key =>
      if key.takesValue then
        match cs with
        | [] => .ok ⟨g, some key⟩
        | '=' :: value => (⟨·, none⟩) <$> g.withValue key (String.ofList value)
        | value => (⟨·, none⟩) <$> g.withValue key (String.ofList value)
      else do
        short (← g.withFlag key) cs

/-- Reads one argument.  What starts with `-` is **never** the value of the option before. -/
def argument (p : Progress) (text : String) : Except Stop Progress :=
  match p.waiting, text.toList with
  | none, '-' :: '-' :: rest => long p.given rest
  | none, '-' :: c :: rest => short p.given (c :: rest)
  | none, _ => .error .misuse
  | some _, '-' :: _ :: _ => .error .misuse
  | some key, _ => (⟨·, none⟩) <$> p.given.withValue key text

/-- Reads the arguments up to their end, or to a `--`, after which there must be nothing. -/
def arguments (p : Progress) : List String → Except Stop Given
  | [] => if p.waiting.isNone then .ok p.given else .error .misuse
  | ["--"] => if p.waiting.isNone then .ok p.given else .error .misuse
  | text :: texts => do arguments (← argument p text) texts

/-! ## Orders -/

/-- Where a source comes from. -/
inductive Origin where
  | text (source : String)
  | file (path : String)
deriving DecidableEq, Repr

/-- What a run is to do. -/
structure Order where
  origin : Origin
  output : Option String
  dev : Bool
deriving DecidableEq, Repr

/-- The order that the arguments give. -/
def Order.ofArguments (args : List String) : Except Stop Order := do
  let g ← arguments ⟨.nothing, none⟩ args
  match g.input, g.build with
  | some source, none => return ⟨.text source, g.output, g.dev⟩
  | none, some path => return ⟨.file path, g.output, g.dev⟩
  | _, _ => throw .misuse

end StackCompiler.CommandLine

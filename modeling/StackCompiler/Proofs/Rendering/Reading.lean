import StackCompiler.Proofs.Grammar.Formula
import StackCompiler.Proofs.Rendering.Writing

/-!
# Proofs/Rendering/Reading — operands of all tiers are read

The left operand of an operator is read in the middle of the repetition of its tier, and so is what a
position in brackets stands behind: what is shown of it is that the repetition succeeds **if it does
from there on** (`GathersTree`).  Nothing behind an operand may be a sign that it goes on with
(`EndsAt`), and where no sign is looked for in front, it starts with none (`StartsAt`).
-/

namespace StackCompiler

theorem Expr.Alike.isLvalue_eq {strings strings' : List String} {e e' : Expr}
    (h : e.Alike strings strings' e') : e'.isLvalue = e.isLvalue := by
  cases h <;> rfl

namespace Grammar

/-! ## Operands and what is around them -/

/-- The tokens go on **with no sign** that an operand of the tier goes on with. -/
def EndsAt (n : Nat) (rest : List Token) : Prop :=
  ∀ token ∈ rest.head?, token.is "(" = false ∧ (n ≤ 5 → token.is "[" = false) ∧
    ∀ level ∈ levels.drop n, ∀ o ∈ level, token.is o.text = false

theorem endsAt_of_is {n : Nat} {token : Token} {rest : List Token} {text : String}
    (h : token.is text = true) (hn : text ≠ "(" ∧ (n ≤ 5 → text ≠ "[") ∧
      ∀ level ∈ levels.drop n, ∀ o ∈ level, text ≠ o.text) :
    EndsAt n (token :: rest) := by
  rintro _ ⟨⟩
  exact ⟨Token.is_eq_false_of_is h hn.1, fun hle => Token.is_eq_false_of_is h (hn.2.1 hle),
    fun level hl o ho => Token.is_eq_false_of_is h (hn.2.2 level hl o ho)⟩

theorem EndsAt.tighter {n : Nat} {rest : List Token} (h : EndsAt n rest) : EndsAt (n + 1) rest := by
  intro token htoken
  obtain ⟨hparen, hbracket, hlevels⟩ := h token htoken
  exact ⟨hparen, fun hle => hbracket (Nat.le_of_succ_le hle),
    fun level hl => hlevels level (List.drop_subset_drop_left levels (Nat.le_succ n) hl)⟩

/-- The signs that the tokens of an operand of the tier **do not start with**. -/
def barred (n : Nat) : List String :=
  if n < 5 then [")"] else [")", "+", "-", "&", "*"]

/-- The tokens start as an operand of the tier does. -/
def StartsAt (n : Nat) (ts : List Token) : Prop :=
  ∃ token rest, ts = token :: rest ∧ ∀ text ∈ barred n, token.is text = false

theorem StartsAt.append {n : Nat} {ts : List Token} (h : StartsAt n ts) (rest : List Token) :
    StartsAt n (ts ++ rest) := by
  obtain ⟨token, ts, rfl, htoken⟩ := h
  exact ⟨token, ts ++ rest, rfl, htoken⟩

theorem StartsAt.looser {n : Nat} {ts : List Token} (h : StartsAt (n + 1) ts) : StartsAt n ts := by
  obtain ⟨token, rest, rfl, htoken⟩ := h
  refine ⟨token, rest, rfl, fun text htext => htoken text ?_⟩
  unfold barred at htext ⊢
  split at htext <;> split <;> first | omega | simp_all

theorem startsAt_of_is {n : Nat} {token : Token} {rest : List Token} {text : String}
    (h : token.is text = true) (hn : text ∉ barred n) : StartsAt n (token :: rest) :=
  ⟨token, rest, rfl, fun _ htext' => Token.is_eq_false_of_is h fun heq => hn (heq ▸ htext')⟩

theorem startsAt_of_kind {n : Nat} {token : Token} {rest : List Token}
    (h : token.kind ≠ .punctuator) : StartsAt n (token :: rest) :=
  ⟨token, rest, rfl, fun text _ => Token.is_eq_false_of_kind h text⟩

/-! ## Reading a tree -/

/-- The result is the tree, and the reading has **come to the rest**. -/
def Gives (T : Reading) (e : Expr) (r : Reading) (rest : List Token) (e' : Expr) (r' : Reading) :
    Prop :=
  e.Alike T.strings r'.strings e' ∧ r.Reaches rest r'

/-- The tokens are read as the tree by the parser of that tier. -/
def ReadsTree (T : Reading) (n : Nat) (x : Nat → Parser Expr) (ts : List Token) (e : Expr) : Prop :=
  ∀ depth rest r, T.SameNames r → r.rest = ts ++ rest → r.rest.length ≤ depth → EndsAt n rest →
    Succeeds (x depth) r (Gives T e r rest)

/-- The tokens are read as the tree **in the middle of a repetition** that starts with the parser of
that tier. -/
def GathersTree (T : Reading) (n : Nat) (x : Nat → Parser Expr)
    (round : Nat → Expr → Parser (Round Expr Expr)) (ts : List Token) (e : Expr) : Prop :=
  ∀ depth rest r (Q : Expr → Reading → Prop), T.SameNames r → r.rest = ts ++ rest →
    r.rest.length ≤ depth → EndsAt n rest →
    (∀ e' r', Gives T e r rest e' r' → Repeats (round depth) e' r' Q) →
    Succeeds (x depth >>= iterate (round depth)) r Q

/-- A round of the repetition that reads positions in brackets. -/
def positioned (expression : Parser Expr) (base : Expr) : Parser (Round Expr Expr) := do
  let loc ← here
  if ← accept "[" then
    let position ← expression
    let _ ← expect "]"
    return .again (← indexed base position loc)
  else
    return .done base

variable {T : Reading} {n : Nat} {ts ts' : List Token} {e e' : Expr} {token : Token} {loc : Nat}

/-- A token that is taken makes room for **one step into the depth**. -/
theorem length_lt_of_append {r : Reading} {rest : List Token} {depth : Nat}
    (hr : r.rest = ts ++ token :: rest) (hdepth : r.rest.length ≤ depth) : rest.length < depth := by
  rw [hr, List.length_append, List.length_cons] at hdepth
  omega

theorem length_lt_of_cons {r : Reading} {rest : List Token} {depth : Nat}
    (hr : r.rest = token :: rest) (hdepth : r.rest.length ≤ depth) : rest.length < depth := by
  rwa [hr, List.length_cons] at hdepth

section Repetition

variable {x : Nat → Parser Expr} {round : Nat → Expr → Parser (Round Expr Expr)}

theorem ReadsTree.gathers (h : ReadsTree T n x ts e)
    (round : Nat → Expr → Parser (Round Expr Expr)) : GathersTree T n x round ts e := by
  intro depth rest r Q hnames hr hdepth hends hgo
  rw [succeeds_bind]
  exact (h depth rest r hnames hr hdepth hends).mono fun e' r' hgives => (hgo e' r' hgives).iterate

/-- A repetition ends **where no sign of its tier comes**. -/
theorem GathersTree.reads (h : GathersTree T (n + 1) x round ts e)
    (hdone : ∀ depth e r, EndsAt n r.rest →
      Succeeds (round depth e) r fun out r' => out = .done e ∧ r' = r) :
    ReadsTree T n (fun depth => x depth >>= iterate (round depth)) ts e := by
  intro depth rest r hnames hr hdepth hends
  refine h depth rest r _ hnames hr hdepth hends.tighter fun e' r' hgives => repeats_of_round ?_
  refine (hdone depth e' r' (hgives.2.rest ▸ hends)).mono ?_
  rintro _ _ ⟨rfl, rfl⟩
  exact hgives

end Repetition

/-! ## Operators with two operands -/

section Joined

variable {level : Level} {ls : List Level}

theorem succeeds_joining_done (hlevel : levels.drop n = level :: ls) (operand : Parser Expr)
    (e : Expr) {r : Reading} (hr : EndsAt n r.rest) :
    Succeeds (joining level operand e) r fun out r' => out = .done e ∧ r' = r := by
  unfold joining
  refine succeeds_here_bind fun loc => ?_
  rw [succeeds_bind]
  refine succeeds_acceptOperator_other (fun token htoken => ?_) ?_
  · exact (hr token htoken).2.2 level (hlevel ▸ List.mem_cons_self)
  · exact (succeeds_pure _).mpr ⟨rfl, rfl⟩

/-- **One more operator and operand** in the middle of a repetition. -/
theorem GathersTree.joined {op : BinaryOp}
    (h : GathersTree T n (fun depth => exprOver ls (depth + 1))
      (fun depth => joining level (exprOver ls (depth + 1))) ts e)
    (h' : ReadsTree T n (fun depth => exprOver ls (depth + 1)) ts' e')
    (hfind : level.find? (fun o => token.is o.text) = some ⟨op.symbol, op, false⟩)
    (hends : EndsAt n (token :: ts')) :
    GathersTree T n (fun depth => exprOver ls (depth + 1))
      (fun depth => joining level (exprOver ls (depth + 1))) (ts ++ token :: ts')
      (.binary op e e' .unknown loc) := by
  intro depth rest r Q hnames hr hdepth hrest hgo
  have hr : r.rest = ts ++ token :: (ts' ++ rest) := by simpa using hr
  have hlength := length_lt_of_append hr hdepth
  refine h depth _ r Q hnames hr hdepth (fun token htoken => hends token htoken)
    fun e₁ r₁ ⟨he₁, hr₁⟩ => repeats_of_round ?_
  unfold joining
  refine succeeds_here_bind fun loc' => ?_
  rw [succeeds_bind]
  refine succeeds_acceptOperator hr₁.rest hfind fun r₂ hr₂ => ?_
  dsimp only
  rw [succeeds_bind]
  have hr₂' := hr₁.trans hr₂.reaches
  refine (h' depth rest r₂ (hnames.trans hr₂'.names) hr₂.rest (hr₂.rest ▸ hlength.le) hrest).mono
    fun e₂ r₃ ⟨he₂, hr₃⟩ => (succeeds_pure _).mpr ⟨?_, hgo _ r₃ ⟨?_, hr₂'.trans hr₃⟩⟩
  · rw [hr₃.rest, hr₁.rest, List.length_cons, List.length_append]
    omega
  · exact .binary (he₁.mono (hr₂.reaches.strings.trans hr₃.strings)) he₂

end Joined

/-! ## Operands -/

/-- The tokens are read as the tree where an expression is to come. -/
abbrev ReadsWhole (T : Reading) (ts : List Token) (e : Expr) : Prop :=
  ReadsTree T 0 (fun depth => exprOver levels (depth + 1)) ts e

/-- The tokens are read as the tree where **no sign comes first**. -/
abbrev ReadsPrimary (T : Reading) (ts : List Token) (e : Expr) : Prop :=
  ReadsTree T 6 (fun depth => primary (exprOver levels depth)) ts e

/-- The tokens are read as the tree **in the middle of a repetition** of positions. -/
abbrev GathersPositions (T : Reading) (ts : List Token) (e : Expr) : Prop :=
  GathersTree T 6 (fun depth => primary (exprOver levels depth))
    (fun depth => positioned (exprOver levels depth)) ts e

/-- The tokens are read as the tree where **signs may come first**. -/
abbrev ReadsOperand (T : Reading) (ts : List Token) (e : Expr) : Prop :=
  ReadsTree T 4 (fun depth => operandTo (depth + 1)) ts e

section Operands

variable {depth : Nat} {rest : List Token} {r : Reading}

/-- A parser that takes **one step into the depth** at once. -/
theorem ReadsTree.succeeds_of_lt {x : Nat → Parser Expr}
    (h : ReadsTree T n (fun depth => x (depth + 1)) ts e) (hnames : T.SameNames r)
    (hr : r.rest = ts ++ rest) (hdepth : r.rest.length < depth) (hends : EndsAt n rest) :
    Succeeds (x depth) r (Gives T e r rest) := by
  obtain ⟨depth, rfl⟩ := Nat.exists_eq_succ_of_ne_zero (Nat.ne_zero_of_lt hdepth)
  exact h depth rest r hnames hr (Nat.le_of_lt_succ hdepth) hends

theorem ReadsWhole.succeeds (h : ReadsWhole T ts e) (hnames : T.SameNames r)
    (hr : r.rest = ts ++ rest) (hdepth : r.rest.length < depth) (hends : EndsAt 0 rest) :
    Succeeds (exprOver levels depth) r (Gives T e r rest) :=
  h.succeeds_of_lt (x := exprOver levels) hnames hr hdepth hends

theorem ReadsOperand.succeeds (h : ReadsOperand T ts e) (hnames : T.SameNames r)
    (hr : r.rest = ts ++ rest) (hdepth : r.rest.length < depth) (hends : EndsAt 4 rest) :
    Succeeds (operandTo depth) r (Gives T e r rest) :=
  h.succeeds_of_lt (x := operandTo) hnames hr hdepth hends

theorem ReadsWhole.succeeds_expression (h : ReadsWhole T ts e) (hnames : T.SameNames r)
    (hr : r.rest = ts ++ rest) (hends : EndsAt 0 rest) :
    Succeeds expression r (Gives T e r rest) := by
  unfold expression bounded bound
  simp only [succeeds_bind, succeeds_get, succeeds_pure]
  exact h.succeeds hnames hr (Nat.lt_succ_self _) hends

theorem readsPrimary_number {v : Int64} {ty : Ty} (hkind : token.kind = .num)
    (hvalue : token.value = some v)
    (hty : (if token.isCharLiteral then .int8 else .unknown) = ty) :
    ReadsPrimary T [token] (.num v ty loc) := by
  intro depth rest r hnames hr _ _
  unfold primary
  refine succeeds_unless hr (Token.is_eq_false_of_kind (by rw [hkind]; decide) _) ?_
  unfold peek
  simp only [succeeds_bind, succeeds_get, succeeds_pure, hr, List.cons_append, List.head?_cons,
    hkind]
  exact succeeds_number hr hkind hvalue fun place r' hr' => ⟨hty ▸ .num, hr'.reaches⟩

theorem readsPrimary_string {i : Nat} (hkind : token.kind = .str)
    (hbody : T.strings[i]? = some token.body) : ReadsPrimary T [token] (.str i .unknown loc) := by
  intro depth rest r hnames hr _ _
  unfold primary
  refine succeeds_unless hr (Token.is_eq_false_of_kind (by rw [hkind]; decide) _) ?_
  unfold peek
  simp only [succeeds_bind, succeeds_get, succeeds_pure, hr, List.cons_append, List.head?_cons,
    hkind]
  refine succeeds_advance hr fun r₁ hr₁ => (succeeds_intern _ r₁).mono fun i' r₂ hintern => ?_
  obtain ⟨hi', hr₂⟩ := hr₁.rest ▸ hintern
  exact ⟨.str hbody hi', hr₁.reaches.trans hr₂⟩

theorem succeeds_primary_name {x : Parser Expr} {Q : Expr → Reading → Prop}
    (hr : r.rest = token :: ts) (hkind : token.kind = .ident) (h : Succeeds (nameOrCall x) r Q) :
    Succeeds (primary x) r Q := by
  unfold primary
  refine succeeds_unless hr (Token.is_eq_false_of_kind (by rw [hkind]; decide) _) ?_
  unfold peek
  simpa only [succeeds_bind, succeeds_get, succeeds_pure, hr, List.head?_cons, hkind] using h

/-- A name that **no bracket follows** is that of a variable. -/
theorem readsPrimary_name {id : VarId} (hkind : token.kind = .ident)
    (hid : T.lookup? token.text = some id) : ReadsPrimary T [token] (.var id .unknown loc) := by
  intro depth rest r hnames hr _ hends
  refine succeeds_primary_name hr hkind ?_
  unfold nameOrCall
  rw [succeeds_bind]
  refine succeeds_identifier hr hkind fun place r₁ hr₁ => ?_
  refine succeeds_else (fun token htoken => ?_) ?_
  · rw [hr₁.rest] at htoken
    exact (hends token htoken).1
  have hlookup : r₁.lookup? token.text = some id :=
    ((hnames.trans hr₁.reaches.names).lookup?_eq _).trans hid
  unfold readName
  simp only [succeeds_bind, succeeds_get, hlookup, succeeds_pure]
  exact ⟨.var, hr₁.reaches⟩

/-- **Parentheses** leave the tree as it is. -/
theorem ReadsWhole.group {opening closing : Token} (ho : opening.is "(" = true)
    (hc : closing.is ")" = true) (h : ReadsWhole T ts e) :
    ReadsPrimary T (opening :: (ts ++ [closing])) e := by
  intro depth rest r hnames hr hdepth _
  have hr : r.rest = opening :: (ts ++ closing :: rest) := by simpa using hr
  have hlength := length_lt_of_cons hr hdepth
  have hends : EndsAt 0 (closing :: rest) := endsAt_of_is hc (by decide)
  unfold primary
  refine succeeds_then hr ho fun r₁ hr₁ => ?_
  rw [succeeds_bind]
  refine (h.succeeds (hnames.trans hr₁.reaches.names) hr₁.rest (hr₁.rest ▸ hlength) hends).mono
    fun e' r₂ ⟨he', hr₂⟩ => ?_
  rw [succeeds_bind]
  refine succeeds_expect hr₂.rest hc fun _ r₃ hr₃ => ?_
  exact (succeeds_pure _).mpr
    ⟨he'.mono hr₃.reaches.strings, hr₁.reaches.trans (hr₂.trans hr₃.reaches)⟩

theorem succeeds_indexed {base position base' position' : Expr}
    (hrule : Expr.PositionRule T base position) (hnames : T.SameNames r)
    (hbase : base.Alike T.strings r.strings base')
    (hposition : position.Alike T.strings r.strings position') (loc : Nat) :
    Succeeds (indexed base' position' loc) r fun e' r' =>
      e' = .index base' position' .unknown loc ∧ r' = r := by
  unfold indexed
  cases hbase with
  | @var id ty baseLoc baseLoc' =>
    obtain ⟨v, hv, hplaceholder, hinside⟩ := hrule id ty baseLoc rfl
    unfold variableOf
    simp only [succeeds_bind, succeeds_get, hnames.vars, hv, succeeds_pure, hplaceholder,
      Bool.false_eq_true, if_false]
    split
    · next hpair =>
      obtain ⟨hty, rfl⟩ := Prod.mk.inj hpair
      cases hposition with
      | num =>
      obtain ⟨hle, hlt⟩ := hinside _ _ hty _ _ _ rfl
      rw [if_neg (by simp; omega)]
      exact (succeeds_pure _).mpr ⟨rfl, rfl⟩
    · exact (succeeds_pure _).mpr ⟨rfl, rfl⟩
  | _ => exact (succeeds_pure _).mpr ⟨rfl, rfl⟩

/-- **One more position** behind a tree. -/
theorem GathersPositions.index {opening closing : Token} (ho : opening.is "[" = true)
    (hc : closing.is "]" = true) (hrule : Expr.PositionRule T e e')
    (h : GathersPositions T ts e) (h' : ReadsWhole T ts' e') :
    GathersPositions T (ts ++ opening :: (ts' ++ [closing])) (.index e e' .unknown loc) := by
  intro depth rest r Q hnames hr hdepth _ hgo
  have hr : r.rest = ts ++ opening :: (ts' ++ closing :: rest) := by simpa using hr
  have hlength := length_lt_of_append hr hdepth
  have hends : EndsAt 0 (closing :: rest) := endsAt_of_is hc (by decide)
  refine h depth _ r Q hnames hr hdepth (endsAt_of_is ho (by decide)) fun base r₁ ⟨hbase, hr₁⟩ =>
    repeats_of_round ?_
  unfold positioned
  refine succeeds_here_bind fun place => succeeds_then hr₁.rest ho fun r₂ hr₂ => ?_
  have hr₂' := hr₁.trans hr₂.reaches
  rw [succeeds_bind]
  refine (h'.succeeds (hnames.trans hr₂'.names) hr₂.rest (hr₂.rest ▸ hlength) hends).mono
    fun position r₃ ⟨hposition, hr₃⟩ => ?_
  rw [succeeds_bind]
  refine succeeds_expect hr₃.rest hc fun _ r₄ hr₄ => ?_
  have hstrings := hr₃.strings.trans hr₄.reaches.strings
  have hr₄' := hr₂'.trans (hr₃.trans hr₄.reaches)
  have hbase₄ := hbase.mono (hr₂.reaches.strings.trans hstrings)
  have hposition₄ := hposition.mono hr₄.reaches.strings
  rw [succeeds_bind]
  refine (succeeds_indexed hrule (hnames.trans hr₄'.names) hbase₄ hposition₄ place).mono ?_
  rintro _ _ ⟨rfl, rfl⟩
  refine (succeeds_pure _).mpr ⟨?_, hgo _ _ ⟨.index hbase₄ hposition₄, hr₄'⟩⟩
  rw [hr₄.rest, hr₁.rest, List.length_cons, List.length_append, List.length_cons]
  omega

/-- What stands behind no sign is an operand **with no position behind it**. -/
theorem GathersPositions.reads_operand (h : GathersPositions T ts e) (hstarts : StartsAt 5 ts) :
    ReadsOperand T ts e := by
  intro depth rest r hnames hr hdepth hends
  have hreads : ReadsTree T 5 (fun depth => postfixed (exprOver levels depth)) ts e := by
    refine GathersTree.reads h fun depth e r hr => ?_
    exact succeeds_here_bind fun loc => succeeds_else
      (fun token htoken => (hr token htoken).2.1 le_rfl) ((succeeds_pure _).mpr ⟨rfl, rfl⟩)
  obtain ⟨token, us, hus, htoken⟩ := hstarts.append rest
  rw [← hr] at hus
  unfold operandTo
  refine succeeds_here_bind fun loc => ?_
  refine succeeds_unless hus (htoken "+" (by decide)) ?_
  refine succeeds_unless hus (htoken "-" (by decide)) ?_
  refine succeeds_unless hus (htoken "&" (by decide)) ?_
  refine succeeds_unless hus (htoken "*" (by decide)) ?_
  exact hreads depth rest r hnames hr hdepth hends.tighter

theorem ReadsOperand.addr (h : ReadsOperand T ts e) (hs : token.is "&" = true)
    (he : e.isLvalue = true) : ReadsOperand T (token :: ts) (.addr e .unknown loc) := by
  intro depth rest r hnames hr hdepth hends
  have hr : r.rest = token :: (ts ++ rest) := hr
  have hlength := length_lt_of_cons hr hdepth
  unfold operandTo
  refine succeeds_here_bind fun loc => ?_
  refine succeeds_unless hr (Token.is_eq_false_of_is hs (by decide)) ?_
  refine succeeds_unless hr (Token.is_eq_false_of_is hs (by decide)) ?_
  refine succeeds_then hr hs fun r₁ hr₁ => ?_
  rw [succeeds_bind]
  refine (h.succeeds (hnames.trans hr₁.reaches.names) hr₁.rest (hr₁.rest ▸ hlength) hends).mono
    fun e' r₂ hgives => ?_
  obtain ⟨he', hr₂⟩ := hgives
  rw [he'.isLvalue_eq, if_pos he]
  exact (succeeds_pure _).mpr ⟨.addr he', hr₁.reaches.trans hr₂⟩

theorem ReadsOperand.deref (h : ReadsOperand T ts e) (hs : token.is "*" = true) :
    ReadsOperand T (token :: ts) (.deref e .unknown loc) := by
  intro depth rest r hnames hr hdepth hends
  have hr : r.rest = token :: (ts ++ rest) := hr
  have hlength := length_lt_of_cons hr hdepth
  unfold operandTo
  refine succeeds_here_bind fun loc => ?_
  refine succeeds_unless hr (Token.is_eq_false_of_is hs (by decide)) ?_
  refine succeeds_unless hr (Token.is_eq_false_of_is hs (by decide)) ?_
  refine succeeds_unless hr (Token.is_eq_false_of_is hs (by decide)) ?_
  refine succeeds_then hr hs fun r₁ hr₁ => ?_
  rw [succeeds_bind]
  refine (h.succeeds (hnames.trans hr₁.reaches.names) hr₁.rest (hr₁.rest ▸ hlength) hends).mono
    fun e' r₂ hgives => ?_
  obtain ⟨he', hr₂⟩ := hgives
  exact (succeeds_pure _).mpr ⟨.deref he', hr₁.reaches.trans hr₂⟩

end Operands

/-! ## Arguments -/

/-- A round of the repetition that reads arguments. -/
def argument (expression : Parser Expr) (items : List Expr) :
    Parser (Round (List Expr) (List Expr)) := do
  let items := items ++ [← expression]
  if ← accept ")" then return .done items
  let _ ← expect ","
  return .again items

/-- The tokens are read as the trees **one by one**, with commas between them and a bracket behind
the last. -/
inductive ReadsEach (T : Reading) : List Token → List Expr → Prop
  | last {ts : List Token} {e : Expr} {closing : Token} (h : ReadsWhole T ts e)
    (hc : closing.is ")" = true) : ReadsEach T (ts ++ [closing]) [e]
  | more {ts ts' : List Token} {e : Expr} {es : List Expr} {comma : Token} (h : ReadsWhole T ts e)
    (hc : comma.is "," = true) (h' : ReadsEach T ts' es) : ReadsEach T (ts ++ comma :: ts') (e :: es)

/-- The results are the trees, and the reading has **come to the rest**. -/
def GivesEach (T : Reading) (es : List Expr) (r : Reading) (rest : List Token) (es' : List Expr)
    (r' : Reading) : Prop :=
  List.Forall₂ (Expr.Alike T.strings r'.strings) es es' ∧ r.Reaches rest r'

/-- The tokens, up to a closing bracket, are read as the arguments. -/
def ReadsArguments (T : Reading) (ts : List Token) (es : List Expr) : Prop :=
  ∀ depth rest r, T.SameNames r → r.rest = ts ++ rest → r.rest.length < depth →
    Succeeds (listUntil ")" (exprOver levels depth)) r (GivesEach T es r rest)

section Arguments

variable {es : List Expr}

theorem ReadsEach.repeats (h : ReadsEach T ts es) {depth : Nat} {rest : List Token} {r : Reading}
    (hnames : T.SameNames r) (hr : r.rest = ts ++ rest) (hdepth : r.rest.length < depth)
    (items : List Expr) :
    Repeats (argument (exprOver levels depth)) items r fun all r' =>
      ∃ es', all = items ++ es' ∧ GivesEach T es r rest es' r' := by
  induction h generalizing r items with
  | @last ts e closing h hc =>
    have hr : r.rest = ts ++ closing :: rest := by simpa using hr
    refine repeats_of_round ?_
    unfold argument
    rw [succeeds_bind]
    refine (h.succeeds hnames hr hdepth (endsAt_of_is hc (by decide))).mono
      fun e' r₁ ⟨he', hr₁⟩ => ?_
    exact succeeds_then hr₁.rest hc fun r₂ hr₂ => (succeeds_pure _).mpr
      ⟨[e'], rfl, .cons (he'.mono hr₂.reaches.strings) .nil, hr₁.trans hr₂.reaches⟩
  | @more ts ts' e es comma h hc h' ih =>
    have hr : r.rest = ts ++ comma :: (ts' ++ rest) := by simpa using hr
    have hlength := length_lt_of_append hr hdepth.le
    refine repeats_of_round ?_
    unfold argument
    rw [succeeds_bind]
    refine (h.succeeds hnames hr hdepth (endsAt_of_is hc (by decide))).mono
      fun e' r₁ ⟨he', hr₁⟩ => ?_
    refine succeeds_unless hr₁.rest (Token.is_eq_false_of_is hc (by decide)) ?_
    rw [succeeds_bind]
    refine succeeds_expect hr₁.rest hc fun _ r₂ hr₂ => ?_
    have hr₂' := hr₁.trans hr₂.reaches
    have hlength₂ : r₂.rest.length < depth := hr₂.rest ▸ hlength
    refine (succeeds_pure _).mpr ⟨?_, ?_⟩
    · exact hr₂.rest ▸ length_lt_of_append hr le_rfl
    · refine (ih (hnames.trans hr₂'.names) hr₂.rest hlength₂ (items ++ [e'])).mono ?_
      rintro _ r₃ ⟨es', rfl, hes', hr₃⟩
      exact ⟨e' :: es', List.append_assoc .., .cons (he'.mono (hr₂.reaches.strings.trans hr₃.strings))
        hes', hr₂'.trans hr₃⟩

/-- Arguments are read up to **the bracket behind the last**. -/
theorem ReadsEach.readsArguments (h : ReadsEach T ts es) (hstarts : StartsAt 0 ts) :
    ReadsArguments T ts es := by
  intro depth rest r hnames hr hdepth
  obtain ⟨token, us, hus, htoken⟩ := hstarts.append rest
  rw [← hr] at hus
  unfold listUntil
  refine succeeds_unless hus (htoken ")" (by decide)) ?_
  refine (h.repeats hnames hr hdepth []).iterate.mono ?_
  rintro _ r' ⟨es', rfl, hgives⟩
  exact hgives

theorem readsArguments_nil (hc : token.is ")" = true) : ReadsArguments T [token] [] := by
  intro depth rest r hnames hr hdepth
  unfold listUntil
  exact succeeds_then hr hc fun r' hr' => (succeeds_pure _).mpr ⟨.nil, hr'.reaches⟩

theorem ReadsArguments.call {opening : Token} (hkind : token.kind = .ident)
    (ho : opening.is "(" = true) (h : ReadsArguments T ts es) :
    ReadsPrimary T (token :: opening :: ts) (.call token.text es .unknown loc) := by
  intro depth rest r hnames hr hdepth _
  have hr : r.rest = token :: opening :: (ts ++ rest) := hr
  have hlength := length_lt_of_cons hr hdepth
  refine succeeds_primary_name hr hkind ?_
  unfold nameOrCall
  rw [succeeds_bind]
  refine succeeds_identifier hr hkind fun place r₁ hr₁ => succeeds_then hr₁.rest ho fun r₂ hr₂ => ?_
  have hr₂' := hr₁.reaches.trans hr₂.reaches
  have hlength₂ : r₂.rest.length < depth := by
    rw [List.length_cons] at hlength
    exact hr₂.rest ▸ Nat.lt_of_succ_lt hlength
  rw [succeeds_bind]
  refine (h depth rest r₂ (hnames.trans hr₂'.names) hr₂.rest hlength₂).mono
    fun es' r₃ ⟨hes', hr₃⟩ => (succeeds_pure _).mpr ⟨?_, hr₂'.trans hr₃⟩
  obtain ⟨hcount, heach⟩ := List.forall₂_iff_zip.mp hes'
  exact .call hcount fun pair hpair => heach hpair

end Arguments

/-! ## Tiers -/

/-- How the tokens of an operand of a tier are read: as far as there are levels in the middle of their
repetition, then with signs in front, and last **in the middle of the positions**. -/
structure ReadsAt (T : Reading) (n : Nat) (ts : List Token) (e : Expr) : Prop where
  starts : StartsAt n ts
  reads : match levels.drop n with
    | level :: ls => GathersTree T (n + 1) (fun depth => exprOver ls (depth + 1))
        (fun depth => joining level (exprOver ls (depth + 1))) ts e
    | [] => if n = levels.length then ReadsOperand T ts e else GathersPositions T ts e

namespace ReadsAt

theorem of_primary (hstarts : StartsAt 5 ts) (h : ReadsPrimary T ts e) : ReadsAt T 5 ts e :=
  ⟨hstarts, h.gathers _⟩

theorem readsTree (h : ReadsAt T n ts e) (hn : n ≤ levels.length) :
    ReadsTree T n (fun depth => exprOver (levels.drop n) (depth + 1)) ts e := by
  have hreads := h.reads
  cases hdrop : levels.drop n with
  | cons level ls =>
    rw [hdrop] at hreads
    exact hreads.reads fun depth e r hr => succeeds_joining_done hdrop _ e hr
  | nil =>
    rw [hdrop] at hreads
    dsimp only at hreads
    obtain rfl := hn.antisymm (List.drop_eq_nil_iff.mp hdrop)
    rwa [if_pos rfl] at hreads

/-- **An operand of a tier is one of the looser tier before it.** -/
theorem looser (h : ReadsAt T (n + 1) ts e) (hn : n ≤ levels.length) : ReadsAt T n ts e := by
  refine ⟨h.starts.looser, ?_⟩
  rcases hn.lt_or_eq with hlt | rfl
  · rw [List.drop_eq_getElem_cons hlt]
    exact (h.readsTree hlt).gathers _
  · have hpositions : GathersPositions T ts e := h.reads
    exact hpositions.reads_operand h.starts

theorem of_le {m : Nat} (h : ReadsAt T n ts e) (hle : m ≤ n) (hn : n ≤ levels.length + 1) :
    ReadsAt T m ts e := by
  induction n with
  | zero => exact Nat.le_zero.mp hle ▸ h
  | succ n ih =>
    rcases hle.lt_or_eq with hlt | rfl
    · exact ih (h.looser (Nat.le_of_succ_le_succ hn)) (Nat.le_of_lt_succ hlt) (Nat.le_of_succ_le hn)
    · exact h

theorem whole (h : ReadsAt T n ts e) (hn : n ≤ levels.length + 1) : ReadsWhole T ts e :=
  (h.of_le (Nat.zero_le n) hn).readsTree (Nat.zero_le _)

theorem binary {op : BinaryOp} (h : ReadsAt T op.tier ts e) (h' : ReadsAt T (op.tier + 1) ts' e')
    (hs : token.is op.symbol = true) :
    ReadsAt T op.tier (ts ++ token :: ts') (.binary op e e' .unknown loc) := by
  have hreads := h'.readsTree op.tier_lt
  obtain ⟨hkind, htext⟩ := Token.is_iff.mp hs
  refine ⟨h.starts.append _, ?_⟩
  cases op <;>
    exact GathersTree.joined h.reads hreads (by simp [Token.is, hkind, htext, BinaryOp.symbol])
      (endsAt_of_is hs (by decide))

end ReadsAt

end Grammar

end StackCompiler

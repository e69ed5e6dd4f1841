import StackCompiler.Proofs.Grammar.Taking
import StackCompiler.Proofs.Token.Formula

/-!
# Proofs/Grammar/Formula — the tokens of a formula are read as the formula

The parser of a tier reads an operand of the next tier and goes on as long as there are signs of its
own.  So an operand of the tier itself is read **in the middle of that repetition**: what is shown of
it is what the repetition ends in, if it goes on from there (`Gathers`).  Nothing behind a formula may
be a sign of a tighter tier or a bracket (`Closes`), or it would still be read.
-/

namespace StackCompiler

/-! ## What a tree means -/

/-- The tree is arithmetic without variables, and comes to what the formula does. -/
structure Expr.Means (e : Expr) (t : Formula) : Prop where
  arithmetic : e.isArithmetic [] = true
  value : ∀ σ, e.value σ = t.value

/-- The operator that is read for a sign. -/
def Sign.operator : Sign → Grammar.LevelOperator
  | equal => ⟨"==", .eq, false⟩
  | unequal => ⟨"!=", .ne, false⟩
  | less => ⟨"<", .lt, false⟩
  | atMost => ⟨"<=", .le, false⟩
  | greater => ⟨">", .lt, true⟩
  | atLeast => ⟨">=", .le, true⟩
  | plus => ⟨"+", .add, false⟩
  | minus => ⟨"-", .sub, false⟩
  | times => ⟨"*", .mul, false⟩
  | dividedBy => ⟨"/", .div, false⟩

namespace Expr

variable {e e' : Expr} {t t' : Formula} {loc loc' : Nat}

theorem means_literal {v : Int64} {ty : Ty} {digits : List Char}
    (h : some v = (Formula.literal digits).value) : (num v ty loc).Means (.literal digits) :=
  ⟨rfl, fun _ => h⟩

/-- A sign in front is a **subtraction from zero**. -/
theorem Means.negative (h : e.Means t) {ty ty' : Ty} :
    (binary .sub (num 0 ty loc) e ty' loc').Means (.negative t) := by
  refine ⟨?_, fun σ => ?_⟩
  · rw [isArithmetic, isArithmetic, h.arithmetic]
    rfl
  · rw [Expr.value, Expr.value, h.value, Formula.value]
    cases t.value with
    | none => rfl
    | some v => exact congrArg some (Int64.zero_sub v)

/-- **Operands that change places** are compared the other way, so the sign keeps its meaning. -/
theorem Means.join (h : e.Means t) (h' : e'.Means t') (sign : Sign) :
    (sign.operator.join e e' loc).Means (.joined sign t t') := by
  have hvalue (op : BinaryOp) (exchanged : Bool)
      (hop : ∀ a b, (if exchanged then op.apply b a else op.apply a b) = sign.apply a b) :
      (Grammar.LevelOperator.join ⟨"", op, exchanged⟩ e e' loc).Means (.joined sign t t') := by
    cases exchanged with
    | false =>
      refine ⟨Bool.and_eq_true_iff.mpr ⟨h.arithmetic, h'.arithmetic⟩, fun σ => ?_⟩
      change (e.value σ).bind (fun a => (e'.value σ).bind (op.apply a)) = _
      rw [h.value, h'.value]
      exact congrArg t.value.bind (funext fun a => congrArg t'.value.bind (funext (hop a)))
    | true =>
      refine ⟨Bool.and_eq_true_iff.mpr ⟨h'.arithmetic, h.arithmetic⟩, fun σ => ?_⟩
      change (e'.value σ).bind (fun b => (e.value σ).bind (op.apply b)) = _
      rw [h.value, h'.value, Option.bind_comm]
      exact congrArg t.value.bind (funext fun a => congrArg t'.value.bind (funext (hop a)))
  cases sign <;> exact hvalue _ _ fun _ _ => rfl

end Expr

/-! ## First tokens -/

/-- A number or an expression in parentheses starts there. -/
def Token.IsClosed (token : Token) : Prop :=
  token.kind = .num ∨ token.is "(" = true

theorem Token.IsClosed.is_eq_false {token : Token} (h : token.IsClosed) {text : String}
    (hne : text ≠ "(") : token.is text = false := by
  rcases h with hkind | hparen
  · simp [Token.is, hkind]
  · obtain ⟨-, htext⟩ := Token.is_iff.mp hparen
    simp [Token.is, htext, hne.symm]

namespace Grammar

/-! ## Taking tokens -/

section Taking

variable {r : Reading} {token : Token} {rest : List Token} {text : String}

theorem ensures_here {Q : Nat → Reading → Prop} (h : ∀ loc, Q loc r) : Ensures here r Q :=
  (succeeds_here h).ensures

theorem ensures_ahead {Q : Bool → Reading → Prop} (h : Q (r.rest.head?.any (·.is text)) r) :
    Ensures (ahead text) r Q :=
  (succeeds_ahead h).ensures

theorem ensures_advance (hr : r.rest = token :: rest) {Q : Unit → Reading → Prop}
    (h : ∀ r', r.Leaves rest r' → Q () r') : Ensures advance r Q :=
  (succeeds_advance hr h).ensures

theorem ensures_accept (hr : r.rest = token :: rest) (his : token.is text = true)
    {Q : Bool → Reading → Prop} (h : ∀ r', r.Leaves rest r' → Q true r') :
    Ensures (accept text) r Q :=
  (succeeds_accept hr his h).ensures

theorem ensures_accept_other (hr : ∀ token ∈ r.rest.head?, token.is text = false)
    {Q : Bool → Reading → Prop} (h : Q false r) : Ensures (accept text) r Q :=
  (succeeds_accept_other hr h).ensures

theorem ensures_expect (hr : r.rest = token :: rest) (his : token.is text = true)
    {Q : Nat → Reading → Prop} (h : ∀ loc r', r.Leaves rest r' → Q loc r') :
    Ensures (expect text) r Q :=
  (succeeds_expect hr his h).ensures

section Branches

variable {α : Type} {x y : Parser α} {Q : α → Reading → Prop}

/-- The next token is the sign that is looked for. -/
theorem ensures_then (hr : r.rest = token :: rest) (his : token.is text = true)
    (h : ∀ r', r.Leaves rest r' → Ensures x r' Q) :
    Ensures (accept text >>= fun found => if found = true then x else y) r Q := by
  rw [ensures_bind]
  refine ensures_accept hr his fun r' hr' => ?_
  rw [if_pos rfl]
  exact h r' hr'

/-- The next token is **not** the sign that is looked for. -/
theorem ensures_else (hr : ∀ token ∈ r.rest.head?, token.is text = false) (h : Ensures y r Q) :
    Ensures (accept text >>= fun found => if found = true then x else y) r Q := by
  rw [ensures_bind]
  refine ensures_accept_other hr ?_
  rwa [if_neg Bool.false_ne_true]

theorem ensures_unless (hr : r.rest = token :: rest) (hother : token.is text = false)
    (h : Ensures y r Q) :
    Ensures (accept text >>= fun found => if found = true then x else y) r Q :=
  ensures_else (by rw [hr]; rintro _ ⟨⟩; exact hother) h

end Branches

end Taking

/-! ## Repetition -/

section Repetition

variable {σ α : Type} {round : σ → Parser (Round σ α)} {Q : α → Reading → Prop} {r : Reading}

/-- What a repetition ends in after one of its rounds, **however often it may be repeated**. -/
def EndsIn (round : σ → Parser (Round σ α)) (Q : α → Reading → Prop) :
    Round σ α → Reading → Prop
  | .again state, r => ∀ n, Ensures (rounds round n state) r Q
  | .done result, r => Q result r

theorem ensures_rounds {state : σ} (h : Ensures (round state) r (EndsIn round Q)) :
    ∀ n, Ensures (rounds round n state) r Q
  | 0 => ensures_broken _ r
  | n + 1 => by
    unfold rounds
    rw [ensures_bind]
    refine h.mono ?_
    rintro (next | result) r' h
    · exact h n
    · exact (ensures_pure _ r' Q).mpr h

theorem ensures_iterate_of_rounds {state : σ} (h : ∀ n, Ensures (rounds round n state) r Q) :
    Ensures (iterate round state) r Q := by
  unfold iterate bounded bound
  simp only [ensures_bind, ensures_get, ensures_pure]
  exact h _

end Repetition

/-! ## Levels -/

/-- Nothing of an expression of these levels comes first. -/
def Closes (ls : List Level) (rest : List Token) : Prop :=
  ∀ token ∈ rest.head?, token.is "[" = false ∧ ∀ level ∈ ls, ∀ o ∈ level, token.is o.text = false

/-- A round of the repetition that joins operands. -/
def joining (level : Level) (operand : Parser Expr) (lhs : Expr) : Parser (Round Expr Expr) := do
  let loc ← here
  match ← acceptOperator level with
  | none => return .done lhs
  | some o => return .again (o.join lhs (← operand) loc)

/-- The parser of these levels over operands of that depth. -/
def exprOver (ls : List Level) (depth : Nat) : Parser Expr :=
  ls.foldr leftAssociated (operandTo depth)

/-- The tokens are read as the formula by the parser of these levels. -/
def Reads (ls : List Level) (ts : List Token) (t : Formula) : Prop :=
  ∀ depth rest r, r.rest = ts ++ rest → Closes ls rest →
    Ensures (exprOver ls depth) r fun e r' => e.Means t ∧ r.Leaves rest r'

/-- The tokens are read as the formula **in the middle of a repetition** of that level. -/
def Gathers (level : Level) (ls : List Level) (ts : List Token) (t : Formula) : Prop :=
  ∀ depth rest r (Q : Expr → Reading → Prop), r.rest = ts ++ rest → Closes ls rest →
    (∀ e r', e.Means t → r.Leaves rest r' →
      ∀ n, Ensures (rounds (joining level (exprOver ls depth)) n e) r' Q) →
    Ensures (exprOver (level :: ls) depth) r Q

/-- A punctuator that none of the levels has **closes** an expression of them. -/
theorem closes_of_is {ls : List Level} {token : Token} {rest : List Token} {text : String}
    (h : token.is text = true) (hne : text ≠ "[" ∧ ∀ level ∈ ls, ∀ o ∈ level, text ≠ o.text) :
    Closes ls (token :: rest) := by
  rintro _ ⟨⟩
  exact ⟨Token.is_eq_false_of_is h hne.1,
    fun level hl o ho => Token.is_eq_false_of_is h (hne.2 level hl o ho)⟩

section Levels

variable {level : Level} {ls : List Level} {ts ts' : List Token} {t t' : Formula}

theorem ensures_acceptOperator_other {r : Reading}
    (hr : ∀ token ∈ r.rest.head?, ∀ o ∈ level, token.is o.text = false)
    {Q : Option LevelOperator → Reading → Prop} (h : Q none r) :
    Ensures (acceptOperator level) r Q :=
  (succeeds_acceptOperator_other hr h).ensures

theorem ensures_acceptOperator {r : Reading} {token : Token} {rest : List Token}
    (hr : r.rest = token :: rest) {o : LevelOperator}
    (hfind : level.find? (fun o => token.is o.text) = some o)
    {Q : Option LevelOperator → Reading → Prop} (h : ∀ r', r.Leaves rest r' → Q (some o) r') :
    Ensures (acceptOperator level) r Q :=
  (succeeds_acceptOperator hr hfind h).ensures

theorem Reads.gathers (h : Reads ls ts t) (level : Level) : Gathers level ls ts t := by
  intro depth rest r Q hr hcloses hgo
  change Ensures (exprOver ls depth >>= iterate (joining level (exprOver ls depth))) r Q
  rw [ensures_bind]
  exact (h depth rest r hr hcloses).mono fun e r' ⟨he, hr'⟩ =>
    ensures_iterate_of_rounds (hgo e r' he hr')

/-- A repetition ends **where no sign of its level comes**. -/
theorem Gathers.reads (h : Gathers level ls ts t) : Reads (level :: ls) ts t := by
  intro depth rest r hr hcloses
  refine h depth rest r _ hr (fun token htoken => ?_) fun e r' he hr' => ensures_rounds ?_
  · obtain ⟨hbracket, hlevels⟩ := hcloses token htoken
    exact ⟨hbracket, fun l hl => hlevels l (List.mem_cons_of_mem level hl)⟩
  · unfold joining
    rw [ensures_bind]
    refine ensures_here fun loc => ?_
    rw [ensures_bind]
    refine ensures_acceptOperator_other (fun token htoken => ?_) ?_
    · rw [hr'.rest] at htoken
      exact (hcloses token htoken).2 level List.mem_cons_self
    · exact (ensures_pure _ r' _).mpr ⟨he, hr'⟩

/-- **One more sign and operand** in the middle of a repetition. -/
theorem Gathers.joined (h : Gathers level ls ts t) (h' : Reads ls ts' t') {token : Token}
    (sign : Sign) (hfind : level.find? (fun o => token.is o.text) = some sign.operator)
    (hcloses : Closes ls (token :: ts')) :
    Gathers level ls (ts ++ token :: ts') (.joined sign t t') := by
  intro depth rest r Q hr hrest hgo
  rw [List.append_assoc] at hr
  refine h depth _ r Q hr (fun token htoken => hcloses token htoken) fun e r₁ he hr₁ =>
    ensures_rounds ?_
  unfold joining
  rw [ensures_bind]
  refine ensures_here fun loc => ?_
  rw [ensures_bind]
  refine ensures_acceptOperator hr₁.rest hfind fun r₂ hr₂ => ?_
  dsimp only
  rw [ensures_bind]
  refine (h' depth rest r₂ hr₂.rest hrest).mono fun e' r₃ ⟨he', hr₃⟩ => ?_
  exact (ensures_pure _ r₃ _).mpr (hgo _ r₃ (he.join he' sign) (hr₁.trans (hr₂.trans hr₃)))

end Levels

/-! ## Operands -/

/-- The tokens are read as the formula where an operand has **no sign in front**. -/
structure ReadsClosed (ts : List Token) (t : Formula) : Prop where
  starts : ∀ rest, ∀ token ∈ (ts ++ rest).head?, token.IsClosed
  reads : ∀ depth rest r, r.rest = ts ++ rest →
    Ensures (primary (exprOver levels depth)) r fun e r' => e.Means t ∧ r.Leaves rest r'

section Operands

variable {ts : List Token} {t : Formula} {token : Token}

theorem ReadsClosed.literal {digits : List Char} (hkind : token.kind = .num)
    (hvalue : token.value = (Formula.literal digits).value) :
    ReadsClosed [token] (.literal digits) := by
  refine ⟨?_, fun depth rest r hr => ?_⟩
  · rintro rest _ ⟨⟩
    exact .inl hkind
  · obtain ⟨kind, text, value, loc, len⟩ := token
    cases hkind
    cases hvalue
    unfold primary
    refine ensures_unless hr rfl ?_
    unfold peek number peek
    simp only [ensures_bind, ensures_get, ensures_pure, hr, List.cons_append, List.head?_cons]
    exact ensures_advance hr fun r' hr' => ⟨Expr.means_literal rfl, hr'⟩

theorem ReadsClosed.group {opening closing : Token} (ho : opening.is "(" = true)
    (hc : closing.is ")" = true) (h : Reads levels ts t) :
    ReadsClosed (opening :: (ts ++ [closing])) t := by
  refine ⟨?_, fun depth rest r hr => ?_⟩
  · rintro rest _ ⟨⟩
    exact .inr ho
  · unfold primary
    have hr : r.rest = opening :: (ts ++ closing :: rest) := by simpa using hr
    refine ensures_then hr ho fun r₁ hr₁ => ?_
    rw [ensures_bind]
    have hcloses : Closes levels (closing :: rest) := closes_of_is hc (by decide)
    refine (h depth _ r₁ hr₁.rest hcloses).mono fun e r₂ ⟨he, hr₂⟩ => ?_
    rw [ensures_bind]
    refine ensures_expect hr₂.rest hc fun _ r₃ hr₃ => ?_
    exact (ensures_pure _ r₃ _).mpr ⟨he, hr₁.trans (hr₂.trans hr₃)⟩

/-- What has no sign in front is read as an operand, **with no position behind it**. -/
theorem ReadsClosed.reads_operand (h : ReadsClosed ts t) : Reads [] ts t := by
  intro depth rest r hr hcloses
  cases depth with
  | zero => exact ensures_broken _ r
  | succ depth =>
    have hother {text : String} (hne : text ≠ "(") :
        ∀ token ∈ r.rest.head?, token.is text = false := by
      rw [hr]
      exact fun token htoken => (h.starts rest token htoken).is_eq_false hne
    change Ensures (operandTo (depth + 1)) r _
    unfold operandTo
    rw [ensures_bind]
    refine ensures_here fun loc => ?_
    refine ensures_else (hother (by decide)) ?_
    refine ensures_else (hother (by decide)) ?_
    refine ensures_else (hother (by decide)) ?_
    refine ensures_else (hother (by decide)) ?_
    unfold postfixed
    rw [ensures_bind]
    refine (h.reads depth rest r hr).mono fun e r' ⟨he, hr'⟩ =>
      ensures_iterate_of_rounds (ensures_rounds ?_)
    rw [ensures_bind]
    refine ensures_here fun loc => ?_
    refine ensures_else (fun token htoken => ?_) ?_
    · rw [hr'.rest] at htoken
      exact (hcloses token htoken).1
    · exact (ensures_pure _ r' _).mpr ⟨he, hr'⟩

theorem Reads.positive (h : Reads [] ts t) (hs : token.is "+" = true) :
    Reads [] (token :: ts) (.positive t) := by
  intro depth rest r hr hcloses
  cases depth with
  | zero => exact ensures_broken _ r
  | succ depth =>
    change Ensures (operandTo (depth + 1)) r _
    unfold operandTo
    rw [ensures_bind]
    refine ensures_here fun loc => ?_
    refine ensures_then hr hs fun r₁ hr₁ => ?_
    exact (h depth rest r₁ hr₁.rest hcloses).mono fun e r₂ ⟨he, hr₂⟩ =>
      ⟨⟨he.arithmetic, he.value⟩, hr₁.trans hr₂⟩

theorem Reads.negative (h : Reads [] ts t) (hs : token.is "-" = true) :
    Reads [] (token :: ts) (.negative t) := by
  intro depth rest r hr hcloses
  cases depth with
  | zero => exact ensures_broken _ r
  | succ depth =>
    change Ensures (operandTo (depth + 1)) r _
    unfold operandTo
    rw [ensures_bind]
    refine ensures_here fun loc => ?_
    refine ensures_unless hr (Token.is_eq_false_of_is hs (by decide)) ?_
    refine ensures_then hr hs fun r₁ hr₁ => ?_
    rw [ensures_bind]
    refine (h depth rest r₁ hr₁.rest hcloses).mono fun e r₂ ⟨he, hr₂⟩ => ?_
    exact (ensures_pure _ r₂ _).mpr ⟨he.negative, hr₁.trans hr₂⟩

end Operands

/-! ## Formulas -/

/-- How the tokens of an operand of a tier are read: as far as there are levels **in the middle of
their repetition**, then as an operand of them all, and last without a sign in front. -/
def ReadAs (n : Nat) (ts : List Token) (t : Formula) : Prop :=
  match levels.drop n with
  | level :: ls => Gathers level ls ts t
  | [] => if n = levels.length then Reads [] ts t else ReadsClosed ts t

section Formulas

variable {n : Nat} {ts ts' : List Token} {t t' : Formula}

theorem ReadAs.reads (h : ReadAs n ts t) (hn : n ≤ levels.length) : Reads (levels.drop n) ts t := by
  unfold ReadAs at h
  cases hdrop : levels.drop n with
  | cons level ls =>
    rw [hdrop] at h
    exact h.reads
  | nil =>
    rw [hdrop] at h
    dsimp only at h
    rwa [if_pos (hn.antisymm (List.drop_eq_nil_iff.mp hdrop))] at h

/-- **An operand of a tier is one of the looser tier before it.** -/
theorem ReadAs.looser (h : ReadAs (n + 1) ts t) : ReadAs n ts t := by
  rcases Nat.lt_trichotomy n levels.length with hlt | rfl | hgt
  · have hreads := h.reads hlt
    unfold ReadAs
    rw [List.drop_eq_getElem_cons hlt]
    exact hreads.gathers _
  · have hclosed : ReadsClosed ts t := h
    exact hclosed.reads_operand
  · have hnil {m : Nat} (hm : n ≤ m) : levels.drop m = [] := List.drop_eq_nil_iff.mpr (by omega)
    unfold ReadAs at h ⊢
    rw [hnil (Nat.le_succ n)] at h
    rw [hnil (Nat.le_refl n)]
    dsimp only at h ⊢
    rw [if_neg (by omega)] at h
    rwa [if_neg (by omega)]

theorem ReadAs.joined (sign : Sign) (h : ReadAs sign.tier ts t) (h' : ReadAs (sign.tier + 1) ts' t')
    {token : Token} (hs : token.is (String.ofList sign.text) = true) :
    ReadAs sign.tier (ts ++ token :: ts') (.joined sign t t') := by
  obtain ⟨hkind, htext⟩ := Token.is_iff.mp hs
  have hreads := h'.reads (by cases sign <;> decide)
  cases sign <;>
    exact Gathers.joined h hreads _ (by simp [Token.is, hkind, htext, Sign.text, Sign.operator])
      (closes_of_is hs (by decide))

/-- **The tokens of a formula are read as the formula.** -/
theorem readAs_of_phrase (h : Phrase n ts t) : ReadAs n ts t := by
  induction h with
  | literal hkind hvalue => exact ReadsClosed.literal hkind hvalue
  | group ho hc _ ih => exact ReadsClosed.group ho hc (ih.reads (Nat.zero_le _))
  | positive hs _ ih => exact Reads.positive ih hs
  | negative hs _ ih => exact Reads.negative ih hs
  | joined sign hs _ _ ih ih' => exact ih.joined sign ih' hs
  | looser _ ih => exact ih.looser

end Formulas

end Grammar

end StackCompiler

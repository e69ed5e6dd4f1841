import StackCompiler.Proofs.Grammar.Declared
import StackCompiler.Proofs.Rendering.Reading

/-!
# Proofs/Grammar/Onward — reading moves on

Each round of a repetition that is followed by another one takes a token (`Repeated`), and so does each
step into the depth: what a parser nests may as well be refused **wherever no token has been taken**
since the parser began (`behind`).  Both are said by running two parsers side by side that differ in
what they nest (`Concur`).
-/

namespace StackCompiler.Grammar

variable {α β σ : Type}

/-! ## Taking tokens -/

/-- The tokens that are left at `r'` are the last of those that are left at `r`, and **fewer**. -/
structure Reading.Onward (r r' : Reading) : Prop where
  suffix : r'.rest <:+ r.rest
  lt : r'.rest.length < r.rest.length

section Onward

variable {r r' r'' : Reading}

theorem Reading.Onward.trans_suffix (h : r.Onward r') (h' : r''.rest <:+ r'.rest) : r.Onward r'' :=
  ⟨h'.trans h.suffix, h'.length_le.trans_lt h.lt⟩

theorem Reading.Onward.trans (h : r.Onward r') (h' : r'.Onward r'') : r.Onward r'' :=
  h.trans_suffix h'.suffix

theorem Reading.onward_of_suffix (h : r'.rest <:+ r.rest) (h' : r'.Onward r'') : r.Onward r'' :=
  ⟨h'.suffix.trans h, h'.lt.trans_le h.length_le⟩

theorem Reading.onward_of_cons {t : Token} (h : r.rest = t :: r'.rest) : r.Onward r' :=
  ⟨h ▸ List.suffix_cons _ _, by rw [h, List.length_cons]; exact Nat.lt_succ_self _⟩

end Onward

/-- If the parser succeeds, it has taken a token. -/
def Advances (x : Parser α) : Prop :=
  ∀ r, Ensures x r fun _ r' => r.Onward r'

/-- A round that is to be followed by another one **takes a token**, and the last one gives none back. -/
def Repeated (round : σ → Parser (Round σ α)) : Prop :=
  ∀ state r, Ensures (round state) r
    (RoundKept (fun _ r' => r.Onward r') fun _ r' => r'.rest <:+ r.rest)

/-- The parser, refused where **no token has been taken** since `r`. -/
def behind (r : Reading) (x : Parser α) : Parser α := do
  if (← get).rest.length < r.rest.length then x else broken .stalled

/-! ## Two parsers side by side -/

/-- From `r` both parsers come to the same, and `Q` holds of it if they succeed. -/
structure Concur (r : Reading) (x y : Parser α) (Q : α → Reading → Prop) : Prop where
  run_eq : y.run r = x.run r
  ensures : Ensures x r Q

/-- With fewer than `n` tokens left both parsers come to the same, and **take a token** if they
succeed. -/
def ConcurBelow (n : Nat) (x y : Parser α) : Prop :=
  ∀ r, r.rest.length < n → Concur r x y fun _ r' => r.Onward r'

section Concur

variable {r r' : Reading} {n m : Nat} {x y : Parser α} {f g : α → Parser β}
  {P : α → Reading → Prop} {Q Q' : β → Reading → Prop}

theorem Concur.mono {x y : Parser β} (h : Concur r x y Q) (hQ : ∀ b r', Q b r' → Q' b r') :
    Concur r x y Q' :=
  ⟨h.run_eq, h.ensures.mono hQ⟩

theorem concur_self (h : Ensures x r P) : Concur r x x P :=
  ⟨rfl, h⟩

theorem concur_pure {a : α} (ha : P a r) : Concur r (pure a) (pure a) P :=
  concur_self ((ensures_pure _ _ _).mpr ha)

/-- **One step after the other** on both sides. -/
theorem Concur.bind (h : Concur r x y P) (hf : ∀ a r', P a r' → Concur r' (f a) (g a) Q) :
    Concur r (x >>= f) (y >>= g) Q := by
  constructor
  · rw [StateT.run_bind, StateT.run_bind, h.run_eq]
    cases hx : x.run r with
    | error => rfl
    | ok next => exact (hf next.1 next.2 (h.ensures _ _ hx)).run_eq
  · exact (ensures_bind x f r Q).mpr (h.ensures.mono fun a r' ha => (hf a r' ha).ensures)

/-- A step that both sides have in common. -/
theorem concur_bind (h : Ensures x r P) (hf : ∀ a r', P a r' → Concur r' (f a) (g a) Q) :
    Concur r (x >>= f) (x >>= g) Q :=
  (concur_self h).bind hf

theorem concur_bind_of_run {a : α} (h : x.run r = .ok (a, r')) (hf : Concur r' (f a) (g a) Q) :
    Concur r (x >>= f) (x >>= g) Q :=
  concur_bind (P := fun b s => b = a ∧ s = r')
    (fun _ _ hrun => by cases h.symm.trans hrun; exact ⟨rfl, rfl⟩) (by rintro _ _ ⟨rfl, rfl⟩; exact hf)

/-- A sign that decides **which way** both sides go. -/
theorem concur_accept_bind {text : String} {x x' y y' : Parser β}
    (htrue : ∀ r', r.Onward r' → Concur r' x y Q) (hfalse : Concur r x' y' Q) :
    Concur r (accept text >>= fun found => if found = true then x else x')
      (accept text >>= fun found => if found = true then y else y') Q := by
  rcases run_accept_cases text r with ⟨t, rest, hr, -, hrun⟩ | ⟨-, hrun⟩
  · refine concur_bind_of_run hrun ?_
    rw [if_pos rfl, if_pos rfl]
    exact htrue _ (Reading.onward_of_cons hr)
  · refine concur_bind_of_run hrun ?_
    rw [if_neg Bool.false_ne_true, if_neg Bool.false_ne_true]
    exact hfalse

theorem ConcurBelow.mono (h : ConcurBelow n x y) (hle : m ≤ n) : ConcurBelow m x y :=
  fun r hr => h r (hr.trans_le hle)

/-- What takes a token **comes to the same as itself**. -/
theorem Advances.concurBelow (h : Advances x) (n : Nat) : ConcurBelow n x x :=
  fun r _ => concur_self (h r)

theorem advances_of_concurBelow (h : ∀ n, ConcurBelow n x x) : Advances x :=
  fun r => (h _ r (Nat.lt_succ_self _)).ensures

/-- Behind `r` a parser is **not refused**. -/
theorem Advances.concurBelow_behind (h : Advances x) (r : Reading) :
    ConcurBelow r.rest.length x (behind r x) := by
  refine fun r' hlt => ⟨?_, h r'⟩
  change (if r'.rest.length < r.rest.length then x else broken .stalled).run r' = x.run r'
  rw [if_pos hlt]

/-- A step into the depth may be **refused where no token has been taken**. -/
theorem run_behind {whole : Parser α → Parser β} (h : Advances x) (r : Reading)
    (hwhole : ∀ y, ConcurBelow r.rest.length x y →
      ConcurBelow (r.rest.length + 1) (whole x) (whole y)) :
    (whole (behind r x)).run r = (whole x).run r :=
  (hwhole _ (h.concurBelow_behind r) r (Nat.lt_succ_self _)).run_eq

/-! ## Single tokens -/

theorem ensures_expect_onward (text : String) (r : Reading) :
    Ensures (expect text) r fun _ r' => r.Onward r' :=
  (ensures_expected text r).mono fun _ _ ⟨_, hrest, _⟩ => Reading.onward_of_cons hrest

theorem advances_identifier : Advances identifier := fun r =>
  (ensures_named r).mono fun _ _ ⟨_, hrest, _⟩ => Reading.onward_of_cons hrest

theorem advances_number : Advances number := by
  intro r
  refine ensures_peek_bind ?_
  cases hr : r.rest with
  | nil => exact ensures_unexpected _
  | cons t rest =>
    obtain ⟨kind, text, value, loc, len⟩ := t
    cases kind with
    | num =>
      cases value with
      | none => exact ensures_refuse _ _ _
      | some value =>
        exact ensures_bind_of_run (run_advance hr)
          ((ensures_pure _ _ _).mpr (Reading.onward_of_cons hr))
    | _ => exact ensures_unexpected _

/-! ## Repetition -/

/-- **Two repetitions come to the same** if their rounds do, one by one. -/
theorem concur_iterate {round round' : σ → Parser (Round σ α)} {Q : α → Reading → Prop}
    (hround : ∀ state r', r'.rest <:+ r.rest → Concur r' (round state) (round' state)
      (RoundKept (fun _ r'' => r'.Onward r'') Q)) (state : σ) :
    Concur r (iterate round state) (iterate round' state) Q := by
  have hrounds : ∀ n state r', r'.rest <:+ r.rest →
      Concur r' (rounds round n state) (rounds round' n state) Q := by
    intro n
    induction n with
    | zero => exact fun _ r' _ => concur_self (ensures_broken _ r')
    | succ n ih =>
      intro state r' hr'
      refine (hround state r' hr').bind ?_
      rintro (next | a) r'' h
      · exact ih next r'' (h.suffix.trans hr')
      · exact concur_pure h
  exact concur_bind_of_run (x := bound) rfl (hrounds _ state r List.suffix_rfl)

/-- A round of items with commas between them. -/
def commaRound (item : Parser α) (items : List α) : Parser (Round (List α) (List α)) := do
  let items := items ++ [← item]
  if ← accept "," then return .again items else return .done items

/-- A round of items up to a closing bracket. -/
def listRound (close : String) (item : Parser α) (items : List α) :
    Parser (Round (List α) (List α)) := do
  let items := items ++ [← item]
  if ← accept close then return .done items
  let _ ← expect ","
  return .again items

theorem commaList_eq (item : Parser α) : commaList item = iterate (commaRound item) [] :=
  rfl

theorem listUntil_eq (close : String) (item : Parser α) : listUntil close item = (do
    if ← accept close then return []
    iterate (listRound close item) []) :=
  rfl

variable {item item' : Parser α}

theorem concur_commaRound (h : ConcurBelow n item item') (items : List α) (hr : r.rest.length < n) :
    Concur r (commaRound item items) (commaRound item' items)
      (RoundKept (fun _ r' => r.Onward r') fun _ r' => r.Onward r') :=
  (h r hr).bind fun _ _ ha =>
    concur_accept_bind (fun _ hcomma => concur_pure (ha.trans hcomma)) (concur_pure ha)

theorem concur_listRound (close : String) (h : ConcurBelow n item item') (items : List α)
    (hr : r.rest.length < n) : Concur r (listRound close item items) (listRound close item' items)
      (RoundKept (fun _ r' => r.Onward r') fun _ r' => r.Onward r') :=
  (h r hr).bind fun _ _ ha =>
    concur_accept_bind (fun _ hclose => concur_pure (ha.trans hclose)) <|
      concur_bind (ensures_expect_onward _ _) fun _ _ hcomma => concur_pure (ha.trans hcomma)

/-- What a round has taken, and the rounds **before it**. -/
theorem roundKept_onward {r' r'' : Reading} (h : r'.rest <:+ r.rest) {o : Round σ α}
    (ho : RoundKept (fun _ s => r'.Onward s) (fun _ s => r'.Onward s) o r'') :
    RoundKept (fun _ s => r'.Onward s) (fun _ s => r.Onward s) o r'' := by
  cases o with
  | again => exact ho
  | done => exact Reading.onward_of_suffix h ho

theorem roundKept_suffix {r' : Reading} {o : Round σ α}
    (ho : RoundKept (fun _ s => r.Onward s) (fun _ s => r.Onward s) o r') :
    RoundKept (fun _ s => r.Onward s) (fun _ s => s.rest <:+ r.rest) o r' := by
  cases o with
  | again => exact ho
  | done => exact ho.suffix

theorem concurBelow_commaList (h : ConcurBelow n item item') :
    ConcurBelow n (commaList item) (commaList item') := fun _ hr =>
  concur_iterate (fun items _ hr₁ => (concur_commaRound h items (hr₁.length_le.trans_lt hr)).mono
    fun _ _ => roundKept_onward hr₁) []

theorem concurBelow_listUntil (close : String) (h : ConcurBelow n item item') :
    ConcurBelow n (listUntil close item) (listUntil close item') := fun _ hr =>
  concur_accept_bind (fun _ hclose => concur_pure hclose) <|
    concur_iterate (fun items _ hr₁ =>
      (concur_listRound close h items (hr₁.length_le.trans_lt hr)).mono
        fun _ _ => roundKept_onward hr₁) []

theorem Advances.repeated_commaRound (h : Advances item) : Repeated (commaRound item) :=
  fun items _ => (concur_commaRound (h.concurBelow _) items (Nat.lt_succ_self _)).ensures.mono
    fun _ _ => roundKept_suffix

theorem Advances.repeated_listRound (h : Advances item) (close : String) :
    Repeated (listRound close item) :=
  fun items _ => (concur_listRound close (h.concurBelow _) items (Nat.lt_succ_self _)).ensures.mono
    fun _ _ => roundKept_suffix

end Concur

/-! ## Types -/

section Types

variable {r : Reading} {n : Nat} {base base' : Parser Ty}

/-- A type over what stands behind its first signs. -/
def typeOver (base : Parser Ty) : Parser Ty := do
  if ← accept "*" then
    return .ptr (← base)
  else if ← accept "[" then
    let (len, loc) ← number
    if len ≤ 0 then refuse (.arrayLength len) loc
    let _ ← expect "]"
    arrayType (← base) len loc
  else
    namedType

theorem typeTo_succ (depth : Nat) : typeTo (depth + 1) = typeOver (typeTo depth) :=
  rfl

theorem advances_namedType : Advances namedType := by
  intro r
  refine ensures_peek_bind ?_
  split
  · next t ht =>
    obtain ⟨rest, hr⟩ := List.head?_eq_some_iff.mp ht
    split
    · exact ensures_bind_of_run (run_advance hr)
        ((ensures_pure _ _ _).mpr (Reading.onward_of_cons hr))
    · exact ensures_unexpected _
  · exact ensures_unexpected _

theorem concurBelow_typeOver (h : ConcurBelow n base base') :
    ConcurBelow (n + 1) (typeOver base) (typeOver base') := by
  intro r hr
  refine concur_accept_bind (fun r₁ hstar => ?_) <| concur_accept_bind (fun r₁ hopen => ?_) <|
    concur_self (advances_namedType r)
  · exact (h r₁ (by have := hstar.lt; omega)).bind fun _ _ hbase => concur_pure (hstar.trans hbase)
  refine concur_bind (advances_number r₁) fun ⟨len, loc⟩ r₂ hlen => ?_
  dsimp only
  split
  · exact concur_self (ensures_refuse_bind _ _ _ _)
  refine concur_bind (ensures_expect_onward _ r₂) fun _ r₃ hclose => ?_
  have hthere := (hopen.trans hlen).trans hclose
  refine (h r₃ (by have := hthere.lt; omega)).bind fun base r₄ hbase => ?_
  unfold arrayType
  dsimp only
  split
  · exact concur_pure (hthere.trans hbase)
  · exact concur_self (ensures_refuse _ _ _)

theorem advances_typeTo (depth : Nat) : Advances (typeTo depth) := by
  induction depth with
  | zero => exact fun r => ensures_broken _ r
  | succ depth ih =>
    exact advances_of_concurBelow fun n =>
      (concurBelow_typeOver (ih.concurBelow n)).mono (Nat.le_succ n)

/-- A step into the depth of a type comes **behind a token**. -/
theorem run_typeTo_succ (depth : Nat) (r : Reading) :
    (typeTo (depth + 1)).run r = (typeOver (behind r (typeTo depth))).run r := by
  rw [typeTo_succ]
  exact (run_behind (advances_typeTo depth) r fun _ => concurBelow_typeOver).symm

end Types

/-! ## Expressions -/

section Expressions

variable {r : Reading} {n : Nat} {operand operand' inner inner' : Parser Expr}

/-- An operator is taken, or **nothing** is. -/
theorem ensures_acceptOperator_onward (level : Level) (r : Reading) :
    Ensures (acceptOperator level) r fun found r' =>
      r'.rest <:+ r.rest ∧ (found ≠ none → r.Onward r') := by
  unfold acceptOperator
  refine ensures_peek_bind ?_
  cases hfound : r.rest.head?.bind fun token => level.find? fun o => token.is o.text with
  | none => exact (ensures_pure _ _ _).mpr ⟨List.suffix_rfl, (absurd rfl ·)⟩
  | some o =>
    obtain ⟨t, ht, -⟩ := Option.bind_eq_some_iff.mp hfound
    obtain ⟨rest, hr⟩ := List.head?_eq_some_iff.mp ht
    refine ensures_bind_of_run (run_advance hr) ((ensures_pure _ _ _).mpr ?_)
    exact ⟨hr ▸ List.suffix_cons _ _, fun _ => Reading.onward_of_cons hr⟩

theorem leftAssociated_eq (level : Level) (operand : Parser Expr) :
    leftAssociated level operand = (operand >>= iterate (joining level operand)) :=
  rfl

theorem concur_joining (level : Level) (h : ConcurBelow n operand operand') (lhs : Expr)
    (hr : r.rest.length < n) : Concur r (joining level operand lhs) (joining level operand' lhs)
      (RoundKept (fun _ r' => r.Onward r') fun _ r' => r'.rest <:+ r.rest) := by
  refine concur_bind_of_run (run_here r) ?_
  refine concur_bind (ensures_acceptOperator_onward level r) ?_
  rintro (_ | o) r₁ ⟨hsuffix, hfound⟩
  · exact concur_pure hsuffix
  · have hsign := hfound nofun
    exact (h r₁ (hsign.lt.trans hr)).bind fun _ _ hrhs => concur_pure (hsign.trans hrhs)

/-- What a round leaves is left behind what **the rounds before it** have left. -/
theorem roundKept_trans {r' r'' : Reading} (h : r'.rest <:+ r.rest) {o : Round σ α}
    (ho : RoundKept (fun _ s => r'.Onward s) (fun _ s => s.rest <:+ r'.rest) o r'') :
    RoundKept (fun _ s => r'.Onward s) (fun _ s => s.rest <:+ r.rest) o r'' := by
  cases o with
  | again => exact ho
  | done => exact List.IsSuffix.trans ho h

theorem concurBelow_leftAssociated (level : Level) (h : ConcurBelow n operand operand') :
    ConcurBelow n (leftAssociated level operand) (leftAssociated level operand') := by
  intro r hr
  refine (h r hr).bind fun lhs r₁ hlhs => ?_
  refine (concur_iterate (fun lhs r₂ hr₂ => ?_) lhs).mono fun _ _ => hlhs.trans_suffix
  exact (concur_joining level h lhs (hr₂.length_le.trans_lt (hlhs.lt.trans hr))).mono
    fun _ _ => roundKept_trans hr₂

theorem Advances.repeated_joining (h : Advances operand) (level : Level) :
    Repeated (joining level operand) :=
  fun lhs _ => (concur_joining level (h.concurBelow _) lhs (Nat.lt_succ_self _)).ensures

theorem concurBelow_expressionOver (h : ConcurBelow n operand operand') :
    ConcurBelow n (expressionOver operand) (expressionOver operand') := by
  unfold expressionOver
  induction levels with
  | nil => exact h
  | cons level levels ih => exact concurBelow_leftAssociated level ih

theorem Advances.leftAssociated (h : Advances operand) (level : Level) :
    Advances (leftAssociated level operand) :=
  advances_of_concurBelow fun n => concurBelow_leftAssociated level (h.concurBelow n)

theorem Advances.expressionOver (h : Advances operand) : Advances (expressionOver operand) :=
  advances_of_concurBelow fun n => concurBelow_expressionOver (h.concurBelow n)

/-! ### Operands -/

/-- Arguments stand behind a name and a bracket, so **there is room** for one step into the depth. -/
theorem concurBelow_nameOrCall (h : ConcurBelow n inner inner') :
    ConcurBelow (n + 1) (nameOrCall inner) (nameOrCall inner') := by
  intro r hr
  refine concur_bind (advances_identifier r) fun ⟨name, loc⟩ r₁ hname => ?_
  refine concur_accept_bind (fun r₂ hopen => ?_) <| concur_self <|
    (traces_readName name loc r₁).mono fun _ _ hread => hname.trans_suffix hread.suffix
  have hthere := hname.trans hopen
  exact (concurBelow_listUntil ")" h r₂ (by have := hthere.lt; omega)).bind fun _ _ hargs =>
    concur_pure (hthere.trans hargs)

theorem concurBelow_primary (h : ConcurBelow n inner inner') :
    ConcurBelow (n + 1) (primary inner) (primary inner') := by
  intro r hr
  refine concur_accept_bind (fun r₁ hopen => ?_) ?_
  · refine (h r₁ (by have := hopen.lt; omega)).bind fun e r₂ he => ?_
    exact concur_bind (ensures_expect_onward _ r₂) fun _ _ hclose =>
      concur_pure ((hopen.trans he).trans hclose)
  refine concur_bind_of_run (x := peek) rfl ?_
  split
  · exact concur_self (ensures_here_bind (ensures_refuse _ _ _))
  next t ht =>
  obtain ⟨rest, hrest⟩ := List.head?_eq_some_iff.mp ht
  split
  · exact concur_bind (advances_number r) fun _ _ hnumber => concur_pure hnumber
  · refine concur_self (ensures_bind_of_run (run_advance hrest) (ensures_bind_of_run (run_intern _ _) ?_))
    exact (ensures_pure _ _ _).mpr (Reading.onward_of_cons hrest)
  · exact concurBelow_nameOrCall h r hr
  · exact concur_self (ensures_unexpected _)

theorem postfixed_eq (inner : Parser Expr) :
    postfixed inner = (primary inner >>= iterate (positioned inner)) :=
  rfl

theorem concur_positioned (h : ConcurBelow n inner inner') (base : Expr) (hr : r.rest.length ≤ n) :
    Concur r (positioned inner base) (positioned inner' base)
      (RoundKept (fun _ r' => r.Onward r') fun _ r' => r'.rest <:+ r.rest) := by
  refine concur_bind_of_run (run_here r) <| concur_accept_bind (fun r₁ hopen => ?_) <|
    concur_pure List.suffix_rfl
  refine (h r₁ (hopen.lt.trans_le hr)).bind fun position r₂ hposition => ?_
  refine concur_bind (ensures_expect_onward _ r₂) fun _ r₃ hclose => ?_
  refine concur_bind (ensures_indexed base position _ r₃) ?_
  rintro _ _ ⟨rfl, -⟩
  exact concur_pure ((hopen.trans hposition).trans hclose)

theorem concurBelow_postfixed (h : ConcurBelow n inner inner') :
    ConcurBelow (n + 1) (postfixed inner) (postfixed inner') := by
  intro r hr
  refine (concurBelow_primary h r hr).bind fun first r₁ hfirst => ?_
  refine (concur_iterate (fun base r₂ hr₂ => ?_) first).mono fun _ _ => hfirst.trans_suffix
  exact (concur_positioned h base (by have := hr₂.length_le; have := hfirst.lt; omega)).mono
    fun _ _ => roundKept_trans hr₂

theorem Advances.repeated_positioned (h : Advances inner) : Repeated (positioned inner) :=
  fun base _ => (concur_positioned (h.concurBelow _) base le_rfl).ensures

/-- An operand over those that it nests. -/
def operandOver (operand : Parser Expr) : Parser Expr := do
  let loc ← here
  if ← accept "+" then
    operand
  else if ← accept "-" then
    return .binary .sub (.num 0 .unknown loc) (← operand) .unknown loc
  else if ← accept "&" then
    let operand ← operand
    if operand.isLvalue then return .addr operand .unknown loc
    else refuse .notAddressable operand.loc
  else if ← accept "*" then
    return .deref (← operand) .unknown loc
  else
    postfixed (expressionOver operand)

theorem operandTo_succ (depth : Nat) : operandTo (depth + 1) = operandOver (operandTo depth) :=
  rfl

theorem concurBelow_operandOver (h : ConcurBelow n operand operand') :
    ConcurBelow (n + 1) (operandOver operand) (operandOver operand') := by
  intro r hr
  have hnested {r₁ : Reading} (hsign : r.Onward r₁) :
      Concur r₁ operand operand' fun _ r' => r.Onward r' :=
    (h r₁ (by have := hsign.lt; omega)).mono fun _ _ => hsign.trans
  refine concur_bind_of_run (run_here r) ?_
  refine concur_accept_bind (fun _ hsign => hnested hsign) ?_
  refine concur_accept_bind
    (fun _ hsign => (hnested hsign).bind fun _ _ he => concur_pure he) ?_
  refine concur_accept_bind (fun _ hsign => (hnested hsign).bind fun e r₂ he => ?_) ?_
  · split
    · exact concur_pure he
    · exact concur_self (ensures_refuse _ _ _)
  refine concur_accept_bind
    (fun _ hsign => (hnested hsign).bind fun _ _ he => concur_pure he) ?_
  exact concurBelow_postfixed (concurBelow_expressionOver h) r hr

theorem advances_operandTo (depth : Nat) : Advances (operandTo depth) := by
  induction depth with
  | zero => exact fun r => ensures_broken _ r
  | succ depth ih =>
    exact advances_of_concurBelow fun n =>
      (concurBelow_operandOver (ih.concurBelow n)).mono (Nat.le_succ n)

/-- A sign, a bracket and a call nest **behind a token**. -/
theorem run_operandTo_succ (depth : Nat) (r : Reading) :
    (operandTo (depth + 1)).run r = (operandOver (behind r (operandTo depth))).run r := by
  rw [operandTo_succ]
  exact (run_behind (advances_operandTo depth) r fun _ => concurBelow_operandOver).symm

theorem advances_bounded {x : Nat → Parser α} (h : ∀ n, Advances (x n)) : Advances (bounded x) := by
  intro r
  unfold bounded bound
  simp only [ensures_bind, ensures_get, ensures_pure]
  exact h _ r

theorem advances_type : Advances type :=
  advances_bounded advances_typeTo

theorem advances_expression : Advances expression :=
  advances_bounded fun depth => (advances_operandTo depth).expressionOver

end Expressions

end StackCompiler.Grammar

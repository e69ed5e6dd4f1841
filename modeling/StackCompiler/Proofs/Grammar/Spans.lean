import StackCompiler.Grammar.Package
import StackCompiler.Proofs.Ensures
import StackCompiler.Proofs.Grammar.Beside
import StackCompiler.Proofs.Grammar.Taking

/-!
# Proofs/Grammar/Spans — a parser knows no more than the tokens it takes

What a parser does rests on the tokens it takes, on a look at those right behind them (`LooksLike`),
and on the tables; and of the strings it asks only where the ones it reads are.  So it comes to the
same in front of **other tokens** and with **more strings** (`Spans`), unless it is given too few rounds
there.  The tokens that it takes nest (`Nested`): no part of a function goes beyond its closing brace.
-/

namespace StackCompiler.Grammar

/-! ## Looking ahead -/

/-- A look ahead tells **no difference** between the two lists. -/
structure LooksLike (rest rest' : List Token) : Prop where
  head? : rest.head? = rest'.head?
  short : ∀ front, isShortDeclaration (front ++ rest) = isShortDeclaration (front ++ rest')

namespace LooksLike

variable {rest rest' : List Token}

theorem refl (rest : List Token) : LooksLike rest rest :=
  ⟨rfl, fun _ => rfl⟩

theorem symm (h : LooksLike rest rest') : LooksLike rest' rest :=
  ⟨h.head?.symm, fun front => (h.short front).symm⟩

/-- Tokens in front **do not help** to tell the difference. -/
theorem append (h : LooksLike rest rest') (front : List Token) :
    LooksLike (front ++ rest) (front ++ rest') where
  head? := by
    rw [List.head?_append, List.head?_append, h.head?]
  short front' := by
    rw [← List.append_assoc, ← List.append_assoc]
    exact h.short (front' ++ front)

end LooksLike

/-- Names with commas between them **do not go on** beyond a token that is neither. -/
theorem isShortDeclaration_behind {t : Token} (hkind : t.kind = .punctuator)
    (hcomma : t.is "," = false) (rest rest' : List Token) : ∀ front : List Token,
      isShortDeclaration (front ++ t :: rest) = isShortDeclaration (front ++ t :: rest')
  | [] => by
    have hname : (t.kind == .ident) = false := by rw [hkind]; rfl
    cases rest <;> cases rest' <;> simp [isShortDeclaration, hname]
  | [name] => by
    simp [isShortDeclaration, hcomma]
  | name :: next :: front => by
    rw [List.cons_append, List.cons_append, isShortDeclaration, List.cons_append, List.cons_append,
      isShortDeclaration, isShortDeclaration_behind hkind hcomma rest rest' front]

/-- Nothing is seen **beyond a punctuator** that is no comma. -/
theorem looksLike_behind {t : Token} {text : String} (ht : t.is text = true) (hcomma : text ≠ ",")
    (front rest rest' : List Token) :
    LooksLike (front ++ t :: rest) (front ++ t :: rest') where
  head? := by cases front <;> rfl
  short front' := by
    obtain ⟨hkind, htext⟩ := Token.is_iff.mp ht
    have hother : t.is "," = false := by simp [Token.is, htext, hcomma]
    rw [← List.append_assoc, ← List.append_assoc]
    exact isShortDeclaration_behind hkind hother rest rest' _

/-! ## Braces -/

/-- The tokens behind the brace that closes the first one to be opened, with `depth` of them open. -/
def closing? : Nat → List Token → Option (List Token)
  | _, [] => none
  | depth, t :: rest =>
    if t.is "\x7b" then closing? (depth + 1) rest
    else if t.is "\x7d" then
      if depth ≤ 1 then some rest else closing? (depth - 1) rest
    else closing? depth rest

/-- The token is no brace and starts no function. -/
def Plain (t : Token) : Prop :=
  t.is "\x7b" = false ∧ t.is "\x7d" = false ∧ t.is "func" = false

/-- No token is a brace or starts a function. -/
def Flat (ts : List Token) : Prop :=
  ∀ t ∈ ts, Plain t

/-- Between braces the tokens **leave as many open** as they find, and none starts a function. -/
structure Nested (ts : List Token) : Prop where
  plain : ∀ t ∈ ts, t.is "func" = false
  level : ∀ depth rest, closing? (depth + 1) (ts ++ rest) = closing? (depth + 1) rest

/-- Tokens of one kind, with a punctuator of that text **behind them**. -/
def EndsWith (text : String) (S : List Token → Prop) (ts : List Token) : Prop :=
  ∃ inner last, ts = inner ++ [last] ∧ last.is text = true ∧ S inner

/-- The tokens are nested ones **between two braces**. -/
def Braced (ts : List Token) : Prop :=
  ∃ first inner, ts = first :: inner ∧ first.is "\x7b" = true ∧ EndsWith "\x7d" Nested inner

/-- What is of a kind **stays so** when more of it follows. -/
structure Joins (P : List Token → Prop) : Prop where
  nil : P []
  append : ∀ {ts ts'}, P ts → P ts' → P (ts ++ ts')

theorem EndsWith.singleton {text : String} {S : List Token → Prop} (hS : Joins S) {t : Token}
    (ht : t.is text = true) : EndsWith text S [t] :=
  ⟨[], t, rfl, ht, hS.nil⟩

theorem EndsWith.append {text : String} {S : List Token → Prop} (hS : Joins S) {ts ts' : List Token}
    (h : S ts) (h' : EndsWith text S ts') : EndsWith text S (ts ++ ts') := by
  obtain ⟨inner, last, rfl, hlast, hinner⟩ := h'
  exact ⟨ts ++ inner, last, (List.append_assoc _ _ _).symm, hlast, hS.append h hinner⟩

/-- Nothing is seen **beyond a punctuator** that is no comma. -/
theorem EndsWith.looksLike {text : String} {S : List Token → Prop} {ts : List Token}
    (h : EndsWith text S ts) (htext : text ≠ ",") (rest rest' : List Token) :
    LooksLike (ts ++ rest) (ts ++ rest') := by
  obtain ⟨inner, last, rfl, hlast, -⟩ := h
  rw [List.append_assoc, List.append_assoc]
  exact looksLike_behind hlast htext inner rest rest'

theorem plain_of_is {t : Token} {text : String} (ht : t.is text = true)
    (htext : text ≠ "\x7b" ∧ text ≠ "\x7d" ∧ text ≠ "func") : Plain t := by
  obtain ⟨-, rfl⟩ := Token.is_iff.mp ht
  obtain ⟨hopen, hclose, hfunc⟩ := htext
  simp [Plain, Token.is, hopen, hclose, hfunc]

theorem plain_of_kind {t : Token} (hkind : t.kind ≠ .punctuator) : Plain t := by
  simp [Plain, Token.is, hkind]

theorem flat_of_is {t : Token} {text : String} (ht : t.is text = true)
    (htext : text ≠ "\x7b" ∧ text ≠ "\x7d" ∧ text ≠ "func") : Flat [t] :=
  List.forall_mem_singleton.mpr (plain_of_is ht htext)

theorem flat_of_kind {t : Token} (hkind : t.kind ≠ .punctuator) : Flat [t] :=
  List.forall_mem_singleton.mpr (plain_of_kind hkind)

theorem closing?_plain {t : Token} (ht : Plain t) (depth : Nat) (rest : List Token) :
    closing? depth (t :: rest) = closing? depth rest := by
  simp [closing?, ht.1, ht.2.1]

theorem Flat.closing? {ts : List Token} (h : Flat ts) (depth : Nat) (rest : List Token) :
    closing? depth (ts ++ rest) = Grammar.closing? depth rest := by
  induction ts with
  | nil => rfl
  | cons t ts ih =>
    obtain ⟨ht, hts⟩ := List.forall_mem_cons.mp h
    rw [List.cons_append, closing?_plain ht, ih hts]

theorem Flat.nested {ts : List Token} (h : Flat ts) : Nested ts where
  plain t ht := (h t ht).2.2
  level depth rest := h.closing? (depth + 1) rest

/-- The brace that closes them is **their last token**. -/
theorem Braced.closing? {ts : List Token} (h : Braced ts) (depth : Nat) (rest : List Token) :
    closing? depth (ts ++ rest) = if depth = 0 then some rest else Grammar.closing? depth rest := by
  obtain ⟨first, _, rfl, hfirst, inner, last, rfl, hlast, hinner⟩ := h
  have hlast' : last.is "\x7b" = false := Token.is_eq_false_of_is hlast (by decide)
  rw [List.cons_append, List.append_assoc, Grammar.closing?, if_pos hfirst, hinner.level]
  simp only [List.cons_append, List.nil_append, Grammar.closing?, hlast', hlast]
  cases depth <;> simp

theorem Braced.nested {ts : List Token} (h : Braced ts) : Nested ts where
  plain := by
    obtain ⟨first, _, rfl, hfirst, inner, last, rfl, hlast, hinner⟩ := h
    have hfirst' : first.is "func" = false := Token.is_eq_false_of_is hfirst (by decide)
    have hlast' : last.is "func" = false := Token.is_eq_false_of_is hlast (by decide)
    intro t ht
    rcases List.mem_cons.mp ht with rfl | ht
    · exact hfirst'
    rcases List.mem_append.mp ht with ht | ht
    · exact hinner.plain t ht
    · exact List.mem_singleton.mp ht ▸ hlast'
  level depth rest := by
    rw [h.closing?, if_neg (Nat.succ_ne_zero depth)]

theorem joins_flat : Joins Flat where
  nil := fun _ h => absurd h List.not_mem_nil
  append h h' := fun t ht => (List.mem_append.mp ht).elim (h t) (h' t)

theorem joins_nested : Joins Nested where
  nil := joins_flat.nil.nested
  append h h' :=
    ⟨fun t ht => (List.mem_append.mp ht).elim (h.plain t) (h'.plain t), fun depth rest => by
      rw [List.append_assoc, h.level, h'.level]⟩

/-! ## Other tokens behind, and more strings -/

/-- The reading with other tokens left and another table of strings. -/
def Reading.before (r : Reading) (rest : List Token) (strings : List String) : Reading :=
  { r with rest := rest, strings := strings }

/-- The parser comes to that, **unless it stalls**. -/
def ComesTo {α : Type} (y : Parser α) (r : Reading) (a : α) (r' : Reading) : Prop :=
  y.run r = .error (.broken .stalled) ∨ y.run r = .ok (a, r')

/-- From `r` the parser `x` takes tokens of which `P` holds, and `y` **comes to the same** with other
tokens behind them, as far as these may be seen, and with a longer table of strings.  The two differ
only in how many rounds they are given. -/
def Spans {α : Type} (r : Reading) (Sees : α → List Token → List Token → Prop)
    (P : α → List Token → Prop) (x y : Parser α) : Prop :=
  Ensures x r fun a r' => ∃ taken, r.rest = taken ++ r'.rest ∧ P a taken ∧ r.strings <+: r'.strings ∧
    ∀ rest strings, Sees a r'.rest rest → r'.strings <+: strings →
      ComesTo y (r.before (taken ++ rest) strings) a (r'.before rest strings)

/-- The parsers take tokens of which `P` holds, and may **look ahead** of them. -/
abbrev Absorbs {α : Type} (P : List Token → Prop) (x y : Parser α) (r : Reading) : Prop :=
  Spans r (fun _ => LooksLike) (fun _ => P) x y

section Steps

variable {α β : Type} {r : Reading} {Sees : α → List Token → List Token → Prop}
  {Sees' : β → List Token → List Token → Prop} {P P' : α → List Token → Prop}
  {Q : α → β → List Token → Prop} {R : β → List Token → Prop} {S : List Token → Prop}
  {x y : Parser α} {f g : α → Parser β}

theorem Spans.mono {Sees₂ : α → List Token → List Token → Prop} (h : Spans r Sees P x y)
    (hP : ∀ a ts, P a ts → P' a ts) (hsees : ∀ a rest rest', Sees₂ a rest rest' → Sees a rest rest') :
    Spans r Sees₂ P' x y :=
  Ensures.mono h fun a _ ⟨taken, hrest, ha, hstrings, hcomes⟩ =>
    ⟨taken, hrest, hP a taken ha, hstrings, fun rest strings hlook =>
      hcomes rest strings (hsees _ _ _ hlook)⟩

/-- **One parser after the other.** -/
theorem Spans.bind (h : Spans r Sees P x y)
    (hf : ∀ a r', x.run r = .ok (a, r') → Spans r' Sees' (Q a) (f a) (g a))
    (hjoin : ∀ a b ts ts', P a ts → Q a b ts' → R b (ts ++ ts'))
    (hsees : ∀ a b ts rest rest', Q a b ts → Sees' b rest rest' →
      Sees a (ts ++ rest) (ts ++ rest')) :
    Spans r Sees' R (x >>= f) (y >>= g) := by
  intro b r₂ hrun
  rw [StateT.run_bind] at hrun
  obtain ⟨⟨a, r₁⟩, hx, hb⟩ := bind_eq_ok_iff.mp hrun
  obtain ⟨taken, hrest, hP, hstrings, hcomes⟩ := h a r₁ hx
  obtain ⟨taken', hrest', hQ, hstrings', hcomes'⟩ := hf a r₁ hx b r₂ hb
  refine ⟨taken ++ taken', by rw [hrest, hrest', List.append_assoc], hjoin _ _ _ _ hP hQ,
    hstrings.trans hstrings', fun rest strings hlook hprefix => ?_⟩
  have hlook' : Sees a r₁.rest (taken' ++ rest) := hrest' ▸ hsees _ _ _ _ _ hQ hlook
  rw [ComesTo, StateT.run_bind, List.append_assoc]
  rcases hcomes _ _ hlook' (hstrings'.trans hprefix) with hy | hy
  · exact .inl (by rw [hy]; rfl)
  · rw [hy]
    exact hcomes' rest strings hlook hprefix

/-- Parsers that may look ahead, one after the other. -/
theorem Absorbs.bind (hS : Joins S) (h : Absorbs S x y r)
    (hf : ∀ a r', x.run r = .ok (a, r') → Absorbs S (f a) (g a) r') :
    Absorbs S (x >>= f) (y >>= g) r :=
  Spans.bind h hf (fun _ _ _ _ => hS.append) fun _ _ ts _ _ _ hlook => hlook.append ts

theorem spans_throw (failure : Failure) : Spans r Sees P (throw failure) y :=
  ensures_throw _ _ _

theorem spans_refuse (cause : Cause) (loc : Nat) : Spans r Sees P (refuse cause loc) y :=
  spans_throw _

theorem spans_refuse_bind (cause : Cause) (loc : Nat) {h : β → Parser α} :
    Spans r Sees P (refuse cause loc >>= h) y :=
  (ensures_bind _ _ _ _).mpr (ensures_throw _ _ _)

theorem spans_broken (fault : Fault) : Spans r Sees P (broken fault) y :=
  spans_throw _

theorem spans_pure {a : α} (ha : P a []) : Spans r Sees P (pure a) (pure a) :=
  (ensures_pure _ _ _).mpr ⟨[], rfl, ha, List.prefix_rfl, fun _ _ _ _ => .inr rfl⟩

theorem spans_ite {p : Prop} [Decidable p] {x' y' : Parser α} (h : p → Spans r Sees P x y)
    (h' : ¬p → Spans r Sees P x' y') :
    Spans r Sees P (if p then x else x') (if p then y else y') := by
  by_cases hp : p
  · rw [if_pos hp, if_pos hp]
    exact h hp
  · rw [if_neg hp, if_neg hp]
    exact h' hp

/-- A look at anything but the tokens and the strings. -/
theorem spans_get_bind {f : Reading → Parser α} (hf : ∀ rest strings, f (r.before rest strings) = f r)
    (h : Spans r Sees P (f r) (f r)) : Spans r Sees P (get >>= f) (get >>= f) := by
  intro a r' hrun
  obtain ⟨taken, hrest, ha, hstrings, hcomes⟩ := h a r' hrun
  refine ⟨taken, hrest, ha, hstrings, fun rest strings hlook hprefix => ?_⟩
  change StateT.run (f (r.before _ _)) _ = _ ∨ StateT.run (f (r.before _ _)) _ = _
  rw [hf]
  exact hcomes rest strings hlook hprefix

/-- A parser that **leaves the tokens and the strings alone** does so in front of any. -/
theorem spans_of_steady (hx : ∀ rest strings, x.run (r.before rest strings) =
      (x.run r).map fun p => (p.1, p.2.before rest strings))
    (hP : ∀ a, P a []) : Spans r Sees P x x := by
  intro a r' hrun
  have hsame : x.run r = (x.run r).map fun p => (p.1, p.2.before r.rest r.strings) :=
    hx r.rest r.strings
  rw [hrun] at hsame
  have hr' : r' = r'.before r.rest r.strings := congrArg Prod.snd (Except.ok.inj hsame)
  refine ⟨[], (congrArg Reading.rest hr').symm, hP a, congrArg Reading.strings hr' ▸ List.prefix_rfl,
    fun rest strings _ _ => .inr ?_⟩
  rw [List.nil_append, hx, hrun]
  rfl

end Steps

/-! ## The next token -/

section Tokens

variable {α : Type} {r : Reading} {S : List Token → Prop} {x y : Parser α} {t : Token}
  {rest : List Token} {text : String} {Sees : Unit → List Token → List Token → Prop}

/-- What is told of the next token **takes none**. -/
theorem spans_glance (g : Option Token → α) :
    Spans r (fun _ rest rest' => rest.head? = rest'.head?) (fun _ ts => ts = [])
      (do return g (← peek)) (do return g (← peek)) := by
  rintro _ _ ⟨⟩
  refine ⟨[], rfl, rfl, List.prefix_rfl, fun rest strings hhead _ => .inr ?_⟩
  rw [hhead]
  rfl

theorem spans_here :
    Spans r (fun _ rest rest' => rest.head? = rest'.head?) (fun _ ts => ts = []) here here := by
  intro loc r' hrun
  rw [run_here] at hrun
  cases hrun
  refine ⟨[], rfl, rfl, List.prefix_rfl, fun rest strings hhead _ => .inr ?_⟩
  rw [run_here, Reading.stop, Reading.stop, hhead]
  rfl

section Look

variable {β : Type} {P : α → List Token → Prop}

/-- A look at the next token **takes none**. -/
theorem Spans.look {x y : Parser β} {f g : β → Parser α}
    (h : Spans r (fun _ rest rest' => rest.head? = rest'.head?) (fun _ ts => ts = []) x y)
    (hf : ∀ b r', x.run r = .ok (b, r') → Spans r' (fun _ => LooksLike) P (f b) (g b)) :
    Spans r (fun _ => LooksLike) P (x >>= f) (y >>= g) := by
  refine Spans.bind h (Q := fun _ => P) hf ?_ fun _ _ ts _ _ _ hlook => (hlook.append ts).head?
  rintro _ _ _ ts rfl hts
  exact hts

theorem spans_peek_bind {f g : Option Token → Parser α}
    (h : Spans r (fun _ => LooksLike) P (f r.rest.head?) (g r.rest.head?)) :
    Spans r (fun _ => LooksLike) P (peek >>= f) (peek >>= g) := by
  refine (spans_glance id).look ?_
  rintro _ _ ⟨⟩
  exact h

theorem spans_here_bind {f g : Nat → Parser α}
    (h : ∀ loc, Spans r (fun _ => LooksLike) P (f loc) (g loc)) :
    Spans r (fun _ => LooksLike) P (here >>= f) (here >>= g) := by
  refine spans_here.look fun loc r' hrun => ?_
  rw [run_here] at hrun
  cases hrun
  exact h _

theorem spans_ahead_bind {f g : Bool → Parser α}
    (h : ∀ found, found = r.rest.head?.any (·.is text) →
      Spans r (fun _ => LooksLike) P (f found) (g found)) :
    Spans r (fun _ => LooksLike) P (ahead text >>= f) (ahead text >>= g) := by
  refine (spans_glance _).look ?_
  rintro _ _ ⟨⟩
  exact h _ rfl

theorem spans_aheadKind_bind {kind : Token.Kind} {f g : Bool → Parser α}
    (h : ∀ found, Spans r (fun _ => LooksLike) P (f found) (g found)) :
    Spans r (fun _ => LooksLike) P (aheadKind kind >>= f) (aheadKind kind >>= g) := by
  refine (spans_glance _).look ?_
  rintro found _ ⟨⟩
  exact h _

theorem spans_atEnd_bind {f g : Bool → Parser α}
    (h : ∀ found, Spans r (fun _ => LooksLike) P (f found) (g found)) :
    Spans r (fun _ => LooksLike) P (atEnd >>= f) (atEnd >>= g) := by
  refine (spans_glance _).look ?_
  rintro found _ ⟨⟩
  exact h _

end Look

theorem run_advance (hr : r.rest = t :: rest) :
    advance.run r = .ok ((), { r with previous := some t, rest := rest }) := by
  obtain ⟨source, previous, _, vars, globals, scope, strings⟩ := r
  cases hr
  rfl

theorem run_accept (hr : r.rest = t :: rest) (ht : t.is text = true) :
    (accept text).run r = .ok (true, { r with previous := some t, rest := rest }) := by
  have hahead : (ahead text).run r = .ok (true, r) := by
    change Except.ok (r.rest.head?.any (·.is text), r) = _
    rw [hr, List.head?_cons, Option.any_some, ht]
  rw [accept, StateT.run_bind, hahead]
  change (advance >>= fun _ => pure true).run r = _
  rw [StateT.run_bind, run_advance hr]
  rfl

theorem run_accept_other (hr : r.rest.head?.any (·.is text) = false) :
    (accept text).run r = .ok (false, r) := by
  have hahead : (ahead text).run r = .ok (false, r) := by
    rw [← hr]
    rfl
  rw [accept, StateT.run_bind, hahead]
  rfl

theorem spans_advance (hr : r.rest = t :: rest) {P : Unit → List Token → Prop} (ht : P () [t]) :
    Spans r Sees P advance advance := by
  intro _ r' hrun
  rw [run_advance hr] at hrun
  cases hrun
  exact ⟨[t], hr, ht, List.prefix_rfl, fun _ _ _ _ => .inr (run_advance rfl)⟩

theorem spans_unexpected (expected : Expected) {Sees : α → List Token → List Token → Prop}
    {P : α → List Token → Prop} : Spans r Sees P (unexpected expected) y := by
  unfold unexpected
  exact (ensures_bind _ _ _ _).mpr fun _ _ _ =>
    (ensures_bind _ _ _ _).mpr fun _ _ _ => ensures_throw _ _ _

theorem run_accept_cases (text : String) (r : Reading) :
    (∃ t rest, r.rest = t :: rest ∧ t.is text = true ∧
      (accept text).run r = .ok (true, { r with previous := some t, rest := rest })) ∨
    r.rest.head?.any (·.is text) = false ∧ (accept text).run r = .ok (false, r) := by
  cases hfound : r.rest.head?.any (·.is text) with
  | true =>
    obtain ⟨t, ht, htext⟩ := (Option.any_eq_true _ _).mp hfound
    obtain ⟨rest, hrest⟩ := List.head?_eq_some_iff.mp ht
    exact .inl ⟨t, rest, hrest, htext, run_accept hrest htext⟩
  | false => exact .inr ⟨rfl, run_accept_other hfound⟩

/-- A punctuator that may come first, and what follows in either case: it is taken **whatever comes
behind it**. -/
theorem spans_accept_bind {Sees : α → List Token → List Token → Prop} {P : α → List Token → Prop}
    {f g : Bool → Parser α}
    (htrue : ∀ r', Spans r' Sees (fun a ts => ∀ t, t.is text = true → P a (t :: ts)) (f true) (g true))
    (hfalse : Spans r Sees P (f false) (g false))
    (hlook : ∀ a ts rest rest', P a ts → Sees a rest rest' →
      (ts ++ rest).head? = (ts ++ rest').head?) :
    Spans r Sees P (accept text >>= f) (accept text >>= g) := by
  intro a r₂ hrun
  rw [StateT.run_bind] at hrun
  rcases run_accept_cases text r with ⟨t, rest, hr, ht, haccept⟩ | ⟨hother, haccept⟩
  · rw [haccept] at hrun
    obtain ⟨taken, hrest, hP, hstrings, hcomes⟩ := htrue _ a r₂ hrun
    refine ⟨t :: taken, hr.trans (congrArg (t :: ·) hrest), hP t ht, hstrings,
      fun rest strings hsees hprefix => ?_⟩
    rw [ComesTo, StateT.run_bind, run_accept rfl ht]
    exact hcomes rest strings hsees hprefix
  · rw [haccept] at hrun
    obtain ⟨taken, hrest, hP, hstrings, hcomes⟩ := hfalse a r₂ hrun
    refine ⟨taken, hrest, hP, hstrings, fun rest strings hsees hprefix => ?_⟩
    have hother' : (r.before (taken ++ rest) strings).rest.head?.any (·.is text) = false := by
      rw [← hother, hrest, hlook a taken r₂.rest rest hP hsees]
      rfl
    rw [ComesTo, StateT.run_bind, run_accept_other hother']
    exact hcomes rest strings hsees hprefix

theorem absorbs_accept_bind (hS : Joins S) (htext : ∀ t, t.is text = true → S [t])
    {f g : Bool → Parser α} (h : ∀ found r', Absorbs S (f found) (g found) r') :
    Absorbs S (accept text >>= f) (accept text >>= g) r :=
  spans_accept_bind
    (fun r' => (h true r').mono (fun _ _ hts t ht => hS.append (htext t ht) hts) fun _ _ _ => id)
    (h false r) fun _ ts _ _ _ hlook => (hlook.append ts).head?

theorem spans_expect : Spans r (fun _ => LooksLike) (fun _ ts => ∃ t, ts = [t] ∧ t.is text = true)
    (expect text) (expect text) := by
  refine spans_here.bind (Q := fun _ _ ts => ∃ t, ts = [t] ∧ t.is text = true)
    (fun loc r' _ => ?_) ?_ fun _ _ ts _ _ _ hlook => (hlook.append ts).head?
  · exact spans_accept_bind (fun r' => spans_pure fun t ht => ⟨t, rfl, ht⟩) (spans_unexpected _)
      fun _ ts _ _ _ hlook => (hlook.append ts).head?
  · rintro _ _ _ ts rfl hts
    exact hts

theorem flat_expect (htext : text ≠ "\x7b" ∧ text ≠ "\x7d" ∧ text ≠ "func") :
    Absorbs Flat (expect text) (expect text) r := by
  refine spans_expect.mono ?_ fun _ _ _ => id
  rintro _ _ ⟨t, rfl, ht⟩
  exact flat_of_is ht htext

theorem absorbs_expect_bind (hS : Joins S) (htext : ∀ t, t.is text = true → S [t])
    {f g : Nat → Parser α} (h : ∀ loc r', Absorbs S (f loc) (g loc) r') :
    Absorbs S (expect text >>= f) (expect text >>= g) r := by
  refine Absorbs.bind hS (spans_expect.mono ?_ fun _ _ _ => id) fun _ _ _ => h _ _
  rintro _ _ ⟨t, rfl, ht⟩
  exact htext t ht

theorem absorbs_identifier (hS : Joins S) (hident : ∀ t, t.kind ≠ .punctuator → S [t]) :
    Absorbs S identifier identifier r := by
  refine spans_peek_bind ?_
  cases hr : r.rest with
  | nil => exact spans_unexpected _
  | cons t rest =>
    obtain ⟨kind, text, value, loc, len⟩ := t
    cases kind with
    | ident =>
      exact Absorbs.bind hS (spans_advance hr (hident _ nofun)) fun _ _ _ => spans_pure hS.nil
    | _ => exact spans_unexpected _

theorem absorbs_number (hS : Joins S) (hnum : ∀ t, t.kind ≠ .punctuator → S [t]) :
    Absorbs S number number r := by
  refine spans_peek_bind ?_
  cases hr : r.rest with
  | nil => exact spans_unexpected _
  | cons t rest =>
    obtain ⟨kind, text, value, loc, len⟩ := t
    cases kind with
    | num =>
      cases value with
      | none => exact spans_refuse _ _
      | some value =>
        exact Absorbs.bind hS (spans_advance hr (hnum _ nofun)) fun _ _ _ => spans_pure hS.nil
    | _ => exact spans_unexpected _

/-- Where a line breaks is told by the **next token**. -/
theorem absorbs_atLineStart (hS : Joins S) : Absorbs S atLineStart atLineStart r := by
  refine spans_get_bind (fun _ _ => rfl) ?_
  cases r.previous with
  | none => exact spans_pure hS.nil
  | some token =>
    refine spans_here_bind fun stop => ?_
    refine spans_ite (fun _ => spans_broken _) fun _ => ?_
    refine spans_ite (fun _ => spans_pure hS.nil) fun _ => ?_
    split
    · exact spans_broken _
    · exact spans_pure hS.nil

end Tokens

/-! ## Repetition -/

section Repetition

variable {α σ : Type} {r : Reading} {S : List Token → Prop}
  {Sees : α → List Token → List Token → Prop} {P : α → List Token → Prop}

theorem Spans.stalled {x y : Parser α} (h : Spans r Sees P x y) :
    Spans r Sees P x (broken .stalled) :=
  Ensures.mono h fun _ _ ⟨taken, hrest, ha, hstrings, _⟩ =>
    ⟨taken, hrest, ha, hstrings, fun _ _ _ _ => .inl rfl⟩

theorem spans_bounded {x y : Nat → Parser α} (h : ∀ n m, Spans r Sees P (x n) (y m)) :
    Spans r Sees P (bounded x) (bounded y) := by
  intro a r' hrun
  obtain ⟨taken, hrest, ha, hstrings, -⟩ := h _ 0 a r' hrun
  refine ⟨taken, hrest, ha, hstrings, fun rest strings hsees hprefix => ?_⟩
  obtain ⟨taken', hrest', -, -, hcomes⟩ := h _ ((taken ++ rest).length + 1) a r' hrun
  obtain rfl := List.append_cancel_right (hrest.symm.trans hrest')
  exact hcomes rest strings hsees hprefix

/-- What a round takes: of one kind if the repetition goes on, and of another if it ends. -/
def Round.Takes (S : List Token → Prop) (P : α → List Token → Prop) : Round σ α → List Token → Prop
  | .again _ => S
  | .done a => P a

/-- Before another round there may be a **look ahead**. -/
def Round.Looks (Sees : α → List Token → List Token → Prop) :
    Round σ α → List Token → List Token → Prop
  | .again _ => LooksLike
  | .done a => Sees a

/-- Parsers that are given **some number of steps into the depth**, and stall without any. -/
theorem spans_depth {ι : Type} {x y : ι → Nat → Parser α} (hx : ∀ i, x i 0 = broken .stalled)
    (hy : ∀ i, y i 0 = broken .stalled)
    (hstep : ∀ n m, (∀ i r, Spans r Sees P (x i n) (y i m)) →
      ∀ i r, Spans r Sees P (x i (n + 1)) (y i (m + 1))) (n m : Nat) (i : ι) :
    Spans r Sees P (x i n) (y i m) := by
  induction n generalizing m i r with
  | zero =>
    rw [hx]
    exact spans_broken _
  | succ n ih =>
    cases m with
    | zero =>
      rw [hy]
      exact (hstep n 0 (fun i _ => ih 0 i) i r).stalled
    | succ m => exact hstep n m (fun i _ => ih m i) i r

/-- Rounds that take what is of one kind, and a last one that **concludes** the repetition. -/
structure Concludes (S : List Token → Prop) (Sees : α → List Token → List Token → Prop)
    (P : α → List Token → Prop) : Prop where
  joins : Joins S
  append : ∀ {a ts ts'}, S ts → P a ts' → P a (ts ++ ts')
  looksLike : ∀ {a ts rest rest'}, P a ts → Sees a rest rest' → LooksLike (ts ++ rest) (ts ++ rest')

namespace Concludes

variable (h : Concludes S Sees P)

include h

theorem looksLike_round {o : Round σ α} {ts rest rest' : List Token} (hts : Round.Takes S P o ts)
    (hlook : Round.Looks Sees o rest rest') : LooksLike (ts ++ rest) (ts ++ rest') := by
  cases o with
  | again s => exact LooksLike.append hlook ts
  | done a => exact h.looksLike hts hlook

/-- What a round **begins with**. -/
theorem bind {β : Type} {x y : Parser β} {f g : β → Parser (Round σ α)} (hx : Absorbs S x y r)
    (hf : ∀ b r', Spans r' (Round.Looks Sees) (Round.Takes S P) (f b) (g b)) :
    Spans r (Round.Looks Sees) (Round.Takes S P) (x >>= f) (y >>= g) := by
  refine Spans.bind hx (fun b r' _ => hf b r') ?_ fun _ _ _ _ _ => h.looksLike_round
  rintro b (s | a) ts ts' hts hts'
  · exact h.joins.append hts hts'
  · exact h.append hts hts'

theorem acceptBind {text : String} {f g : Bool → Parser (Round σ α)}
    (htrue : ∀ r', Spans r' (Round.Looks Sees)
      (fun o ts => ∀ t, t.is text = true → Round.Takes S P o (t :: ts)) (f true) (g true))
    (hfalse : Spans r (Round.Looks Sees) (Round.Takes S P) (f false) (g false)) :
    Spans r (Round.Looks Sees) (Round.Takes S P) (accept text >>= f) (accept text >>= g) :=
  spans_accept_bind htrue hfalse fun _ _ _ _ hts hlook => (h.looksLike_round hts hlook).head?

theorem again (s : σ) :
    Spans r (Round.Looks Sees) (Round.Takes S P) (pure (.again s)) (pure (.again s)) :=
  spans_pure h.joins.nil

theorem iterate {round round' : σ → Parser (Round σ α)}
    (hround : ∀ s r, Spans r (Round.Looks Sees) (Round.Takes S P) (round s) (round' s)) (s : σ) :
    Spans r Sees P (Grammar.iterate round s) (Grammar.iterate round' s) := by
  refine spans_bounded fun n m => spans_depth (x := fun s n => rounds round n s)
    (y := fun s n => rounds round' n s) (fun _ => rfl) (fun _ => rfl) (fun n m ih s r => ?_) n m s
  refine (hround s r).bind (Q := fun o a ts => match o with
    | .again _ => P a ts
    | .done b => b = a ∧ ts = []) (fun o r' _ => ?_) ?_ ?_
  · cases o with
    | again s => exact ih s r'
    | done b => exact spans_pure ⟨rfl, rfl⟩
  · rintro (s | b) a ts ts' hts hts'
    · exact h.append hts hts'
    · obtain ⟨rfl, rfl⟩ := hts'
      rwa [List.append_nil]
  · rintro (s | b) a ts rest rest' hts hlook
    · exact h.looksLike hts hlook
    · obtain ⟨rfl, rfl⟩ := hts
      exact hlook

end Concludes

theorem absorbs_iterate (hS : Joins S) {round round' : σ → Parser (Round σ α)}
    (hround : ∀ s r, Absorbs S (round s) (round' s) r) (s : σ) :
    Absorbs S (iterate round s) (iterate round' s) r := by
  have hcloses : Concludes S (fun _ => LooksLike) fun _ : α => S :=
    ⟨hS, hS.append, fun _ hlook => hlook.append _⟩
  refine hcloses.iterate (fun s r => (hround s r).mono ?_ ?_) s
  · rintro (s | a) ts hts
    · exact hts
    · exact hts
  · rintro (s | a) rest rest' hlook
    · exact hlook
    · exact hlook

variable {item item' : Parser α}

theorem absorbs_commaList (hS : Joins S) (hcomma : ∀ t, t.is "," = true → S [t])
    (hitem : ∀ r, Absorbs S item item' r) : Absorbs S (commaList item) (commaList item') r := by
  refine absorbs_iterate hS (fun items r => ?_) []
  refine Absorbs.bind hS (hitem r) fun a r' _ => absorbs_accept_bind hS hcomma fun found r' => ?_
  exact spans_ite (fun _ => spans_pure hS.nil) fun _ => spans_pure hS.nil

end Repetition

/-! ## Types -/

section Types

variable {α : Type} {r : Reading}

theorem absorbs_typeAhead {S : List Token → Prop} (hS : Joins S) :
    Absorbs S typeAhead typeAhead r :=
  spans_ahead_bind fun _ _ => spans_ahead_bind fun _ _ => spans_aheadKind_bind fun _ =>
    spans_pure hS.nil

theorem flat_accept_bind {text : String}
    (htext : text ≠ "\x7b" ∧ text ≠ "\x7d" ∧ text ≠ "func") {f g : Bool → Parser α}
    (h : ∀ found r', Absorbs Flat (f found) (g found) r') :
    Absorbs Flat (accept text >>= f) (accept text >>= g) r :=
  absorbs_accept_bind joins_flat (fun _ ht => flat_of_is ht htext) h

theorem flat_expect_bind {text : String}
    (htext : text ≠ "\x7b" ∧ text ≠ "\x7d" ∧ text ≠ "func") {f g : Nat → Parser α}
    (h : ∀ loc r', Absorbs Flat (f loc) (g loc) r') :
    Absorbs Flat (expect text >>= f) (expect text >>= g) r :=
  absorbs_expect_bind joins_flat (fun _ ht => flat_of_is ht htext) h

theorem flat_commaList {item item' : Parser α} (hitem : ∀ r, Absorbs Flat item item' r) :
    Absorbs Flat (commaList item) (commaList item') r :=
  absorbs_commaList joins_flat (fun _ ht => flat_of_is ht (by decide)) hitem

theorem spans_listUntil {item item' : Parser α} {close : String}
    (hitem : ∀ r, Absorbs Flat item item' r) :
    Spans r (fun _ => LooksLike) (fun _ => EndsWith close Flat) (listUntil close item)
      (listUntil close item') := by
  have hcloses : Concludes Flat (fun _ => LooksLike) fun _ : List α => EndsWith close Flat :=
    ⟨joins_flat, EndsWith.append joins_flat, fun _ hlook => hlook.append _⟩
  refine spans_accept_bind (fun r' => spans_pure fun t ht => EndsWith.singleton joins_flat ht) ?_
    fun _ ts _ _ _ hlook => (hlook.append ts).head?
  refine hcloses.iterate (fun items r => hcloses.bind (hitem r) fun a r => ?_) []
  refine hcloses.acceptBind (fun r' => spans_pure fun t ht => EndsWith.singleton joins_flat ht) ?_
  exact hcloses.bind (flat_expect (by decide)) fun _ _ => hcloses.again _

theorem flat_listUntil {item item' : Parser α} {close : String}
    (hclose : close ≠ "\x7b" ∧ close ≠ "\x7d" ∧ close ≠ "func")
    (hitem : ∀ r, Absorbs Flat item item' r) :
    Absorbs Flat (listUntil close item) (listUntil close item') r := by
  refine (spans_listUntil hitem).mono ?_ fun _ _ _ => id
  rintro _ _ ⟨inner, last, rfl, hlast, hinner⟩
  exact joins_flat.append hinner (flat_of_is hlast hclose)

theorem flat_identifier : Absorbs Flat identifier identifier r :=
  absorbs_identifier joins_flat fun _ => flat_of_kind

theorem flat_number : Absorbs Flat number number r :=
  absorbs_number joins_flat fun _ => flat_of_kind

theorem flat_namedType : Absorbs Flat namedType namedType r := by
  refine spans_peek_bind ?_
  cases hr : r.rest with
  | nil => exact spans_unexpected _
  | cons t rest =>
    dsimp only [List.head?_cons]
    split
    · next ty hkind hty =>
      have ht : Flat [t] := flat_of_kind (by rw [hkind]; nofun)
      exact Absorbs.bind joins_flat (spans_advance hr ht) fun _ _ _ => spans_pure joins_flat.nil
    · exact spans_unexpected _

theorem flat_type : Absorbs Flat type type r := by
  refine spans_bounded fun n m => spans_depth (x := fun _ => typeTo) (y := fun _ => typeTo)
    (fun _ => rfl) (fun _ => rfl) (fun n m ih _ r => ?_) n m ()
  refine flat_accept_bind (by decide) fun star r => ?_
  refine spans_ite (fun _ => Absorbs.bind joins_flat (ih () r) fun _ _ _ => spans_pure joins_flat.nil)
    fun _ => ?_
  refine flat_accept_bind (by decide) fun bracket r => ?_
  refine spans_ite (fun _ => ?_) fun _ => flat_namedType
  refine Absorbs.bind joins_flat flat_number fun ⟨len, loc⟩ r _ => ?_
  refine spans_ite (fun _ => spans_refuse_bind _ _) fun _ => ?_
  refine flat_expect_bind (by decide) fun _ r => ?_
  refine Absorbs.bind joins_flat (ih () r) fun base r _ => ?_
  exact spans_ite (fun _ => spans_pure joins_flat.nil) fun _ => spans_refuse _ _

end Types

/-! ## Names -/

section Names

variable {r : Reading} {S : List Token → Prop}

theorem absorbs_declare (hS : Joins S) (name : String) (ty : Ty) (loc : Nat) :
    Absorbs S (declare name ty loc) (declare name ty loc) r := by
  refine spans_of_steady (fun rest strings => ?_) fun _ => hS.nil
  have hlookup : (r.before rest strings).lookup? name = r.lookup? name := rfl
  unfold declare
  rw [StateT.run_bind, StateT.run_bind, StateT.run_get, StateT.run_get, pure_bind, pure_bind,
    hlookup]
  split
  · rfl
  · obtain ⟨source, previous, rest, vars, globals, scope, strings⟩ := r
    cases scope <;> rfl

theorem absorbs_readName (hS : Joins S) (name : String) (loc : Nat) :
    Absorbs S (readName name loc) (readName name loc) r := by
  refine spans_of_steady (fun rest strings => ?_) fun _ => hS.nil
  have hlookup : (r.before rest strings).lookup? name = r.lookup? name := rfl
  unfold readName
  rw [StateT.run_bind, StateT.run_bind, StateT.run_get, StateT.run_get, pure_bind, pure_bind,
    hlookup]
  cases r.lookup? name <;> rfl

theorem absorbs_variableOf (hS : Joins S) (id : VarId) :
    Absorbs S (variableOf id) (variableOf id) r := by
  refine spans_get_bind (fun _ _ => rfl) ?_
  split
  · exact spans_pure hS.nil
  · exact spans_broken _

theorem mem_interned (table : List String) (s : String) : s ∈ interned table s := by
  unfold interned
  split
  · next hs => exact hs
  · exact List.mem_append_right _ List.mem_cons_self

theorem idxOf_interned (table : List String) (s : String) :
    (interned table s).idxOf s = table.idxOf s := by
  unfold interned
  split
  · rfl
  · next hs =>
    rw [List.idxOf_append_of_notMem hs, List.idxOf_of_notMem hs, List.idxOf_cons_self, Nat.add_zero]

theorem prefix_interned (table : List String) (s : String) : table <+: interned table s := by
  unfold interned
  split
  · exact List.prefix_rfl
  · exact List.prefix_append _ _

/-- A string that is there **has its number** in any longer table. -/
theorem absorbs_intern (hS : Joins S) (s : String) : Absorbs S (intern s) (intern s) r := by
  intro i r' hrun
  rw [run_intern] at hrun
  cases hrun
  refine ⟨[], rfl, hS.nil, prefix_interned _ _, ?_⟩
  rintro rest _ - ⟨more, rfl⟩
  have hmem := mem_interned r.strings s
  refine .inr ((run_intern _ _).trans ?_)
  have hsame : interned (interned r.strings s ++ more) s = interned r.strings s ++ more :=
    if_pos (List.mem_append_left _ hmem)
  have hidx : (interned r.strings s ++ more).idxOf s = r.strings.idxOf s := by
    rw [List.idxOf_append_of_mem hmem, idxOf_interned]
  simp only [Reading.before, hsame, hidx, List.nil_append]

end Names

/-! ## Expressions -/

section Expressions

variable {r : Reading} {inner inner' operand operand' : Parser Expr}

theorem flat_acceptOperator {level : Level} (hlevel : level ∈ levels) :
    Absorbs Flat (acceptOperator level) (acceptOperator level) r := by
  have hplain : ∀ level ∈ levels, ∀ o ∈ level,
      o.text ≠ "\x7b" ∧ o.text ≠ "\x7d" ∧ o.text ≠ "func" := by
    decide
  refine spans_peek_bind ?_
  cases hr : r.rest with
  | nil => exact spans_pure joins_flat.nil
  | cons t rest =>
    dsimp only [List.head?_cons, Option.bind_some]
    split
    · exact spans_pure joins_flat.nil
    · next o ho =>
      have ht := List.find?_some ho
      have hflat := flat_of_is ht (hplain level hlevel o (List.mem_of_find?_eq_some ho))
      exact Absorbs.bind joins_flat (spans_advance hr hflat) fun _ _ _ => spans_pure joins_flat.nil

theorem flat_leftAssociated {level : Level} (hlevel : level ∈ levels)
    (h : ∀ r, Absorbs Flat operand operand' r) :
    Absorbs Flat (leftAssociated level operand) (leftAssociated level operand') r := by
  refine Absorbs.bind joins_flat (h r) fun first r _ => ?_
  refine absorbs_iterate joins_flat (fun lhs r => ?_) first
  refine spans_here_bind fun loc => ?_
  refine Absorbs.bind joins_flat (flat_acceptOperator hlevel) fun found r _ => ?_
  cases found with
  | none => exact spans_pure joins_flat.nil
  | some o => exact Absorbs.bind joins_flat (h r) fun _ _ _ => spans_pure joins_flat.nil

theorem flat_expressionOver (h : ∀ r, Absorbs Flat operand operand' r) :
    Absorbs Flat (expressionOver operand) (expressionOver operand') r := by
  have hlevels (ls : List Level) (hls : ∀ level ∈ ls, level ∈ levels) (r : Reading) :
      Absorbs Flat (ls.foldr leftAssociated operand) (ls.foldr leftAssociated operand') r := by
    induction ls generalizing r with
    | nil => exact h r
    | cons level ls ih =>
      obtain ⟨hlevel, hls⟩ := List.forall_mem_cons.mp hls
      exact flat_leftAssociated hlevel (ih hls)
  exact hlevels levels (fun _ => id) r

theorem absorbs_indexed {S : List Token → Prop} (hS : Joins S) (base position : Expr) (loc : Nat) :
    Absorbs S (indexed base position loc) (indexed base position loc) r := by
  unfold indexed
  split
  · refine Absorbs.bind hS (absorbs_variableOf hS _) fun v r _ => ?_
    refine spans_ite (fun _ => spans_refuse_bind _ _) fun _ => ?_
    dsimp only
    split
    · exact spans_ite (fun _ => spans_refuse_bind _ _) fun _ => spans_pure hS.nil
    · exact spans_pure hS.nil
  · exact spans_pure hS.nil

theorem flat_nameOrCall (h : ∀ r, Absorbs Flat inner inner' r) :
    Absorbs Flat (nameOrCall inner) (nameOrCall inner') r := by
  refine Absorbs.bind joins_flat flat_identifier fun ⟨name, loc⟩ r _ => ?_
  refine flat_accept_bind (by decide) fun called r => ?_
  refine spans_ite (fun _ => ?_) fun _ => absorbs_readName joins_flat name loc
  exact Absorbs.bind joins_flat (flat_listUntil (by decide) h) fun _ _ _ => spans_pure joins_flat.nil

theorem flat_primary (h : ∀ r, Absorbs Flat inner inner' r) :
    Absorbs Flat (primary inner) (primary inner') r := by
  refine flat_accept_bind (by decide) fun opened r => ?_
  refine spans_ite (fun _ => ?_) fun _ => spans_peek_bind ?_
  · exact Absorbs.bind joins_flat (h r) fun e r _ =>
      flat_expect_bind (by decide) fun _ _ => spans_pure joins_flat.nil
  cases hr : r.rest with
  | nil => exact spans_here_bind fun _ => spans_refuse _ _
  | cons t rest =>
    dsimp only [List.head?_cons]
    split
    · exact Absorbs.bind joins_flat flat_number fun _ _ _ => spans_pure joins_flat.nil
    · next hkind =>
      have ht : Flat [t] := flat_of_kind (by rw [hkind]; nofun)
      exact Absorbs.bind joins_flat (spans_advance hr ht) fun _ r _ =>
        Absorbs.bind joins_flat (absorbs_intern joins_flat _) fun _ _ _ => spans_pure joins_flat.nil
    · exact flat_nameOrCall h
    · exact spans_unexpected _

theorem flat_postfixed (h : ∀ r, Absorbs Flat inner inner' r) :
    Absorbs Flat (postfixed inner) (postfixed inner') r := by
  refine Absorbs.bind joins_flat (flat_primary h) fun first r _ => ?_
  refine absorbs_iterate joins_flat (fun base r => ?_) first
  refine spans_here_bind fun loc => flat_accept_bind (by decide) fun opened r => ?_
  refine spans_ite (fun _ => ?_) fun _ => spans_pure joins_flat.nil
  refine Absorbs.bind joins_flat (h r) fun position r _ => ?_
  refine flat_expect_bind (by decide) fun _ r => ?_
  exact Absorbs.bind joins_flat (absorbs_indexed joins_flat _ _ _) fun _ _ _ => spans_pure joins_flat.nil

theorem flat_operandTo (n m : Nat) : Absorbs Flat (operandTo n) (operandTo m) r := by
  refine spans_depth (x := fun _ => operandTo) (y := fun _ => operandTo) (fun _ => rfl)
    (fun _ => rfl) (fun n m ih _ r => ?_) n m ()
  refine spans_here_bind fun loc => flat_accept_bind (by decide) fun plus r => ?_
  refine spans_ite (fun _ => ih () r) fun _ => flat_accept_bind (by decide) fun minus r => ?_
  refine spans_ite (fun _ => Absorbs.bind joins_flat (ih () r) fun _ _ _ => spans_pure joins_flat.nil)
    fun _ => flat_accept_bind (by decide) fun address r => ?_
  refine spans_ite (fun _ => Absorbs.bind joins_flat (ih () r) fun operand r _ => ?_)
    fun _ => flat_accept_bind (by decide) fun star r => ?_
  · exact spans_ite (fun _ => spans_pure joins_flat.nil) fun _ => spans_refuse _ _
  exact spans_ite
    (fun _ => Absorbs.bind joins_flat (ih () r) fun _ _ _ => spans_pure joins_flat.nil)
    fun _ => flat_postfixed fun r => flat_expressionOver (ih ())

/-- **An expression** is told from its own tokens. -/
theorem flat_expression : Absorbs Flat expression expression r :=
  spans_bounded fun n m => flat_expressionOver fun _ => flat_operandTo n m

end Expressions

end StackCompiler.Grammar

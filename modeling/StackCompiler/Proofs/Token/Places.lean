import StackCompiler.Proofs.Ensures
import StackCompiler.Proofs.Fails
import StackCompiler.Proofs.Machine.Names
import StackCompiler.Token.Scan

/-!
# Proofs/Token/Places — where the tokens of a source stand

Byte offsets are safe to cut at where they fall **between two characters** (`Text.Boundary`).  Every
token starts and ends at such an offset and has the text between them (`Token.ReadFrom`), so what
the later stages are told of the source is always there.
-/

namespace StackCompiler

/-! ## Offsets between characters -/

namespace Text

/-- The offset falls between two characters of the text, or at one of its ends. -/
def Boundary (source : List Char) (n : Nat) : Prop :=
  ∃ before after, source = before ++ after ∧ byteLength before = n

variable {source : List Char} {m n : Nat}

theorem boundary_append (before after : List Char) :
    Boundary (before ++ after) (byteLength before) :=
  ⟨before, after, rfl, rfl⟩

theorem boundary_zero (source : List Char) : Boundary source 0 :=
  boundary_append [] source

theorem boundary_byteLength (source : List Char) : Boundary source (byteLength source) := by
  simpa using boundary_append source []

theorem Boundary.le (h : Boundary source n) : n ≤ byteLength source := by
  obtain ⟨before, after, rfl, rfl⟩ := h
  simp

/-- Two cuts of a text at **one offset or a later one** leave a text between them. -/
theorem Boundary.exists_slice? (hm : Boundary source m) (hn : Boundary source n) (h : m ≤ n) :
    ∃ between, slice? m n source = some between := by
  obtain ⟨before, after, rfl, rfl⟩ := hm
  obtain ⟨before', after', heq, rfl⟩ := hn
  have hafter : Boundary after (byteLength before' - byteLength before) := by
    rcases List.append_eq_append_iff.mp heq with ⟨between, rfl, rfl⟩ | ⟨between, rfl, rfl⟩
    · simpa using boundary_append between after'
    · have hzero : byteLength before' - byteLength (before' ++ between) = 0 := by simp
      exact hzero ▸ boundary_zero _
  obtain ⟨between, rest, rfl, hlen⟩ := hafter
  exact ⟨between, by simp [slice?, splitAt?_byteLength_append, ← hlen]⟩

theorem slice?_append (before between after : List Char) :
    slice? (byteLength before) (byteLength before + byteLength between)
      (before ++ (between ++ after)) = some between := by
  simp [slice?, splitAt?_byteLength_append]

/-- An offset between two characters **has a place**. -/
theorem Boundary.exists_ofOffset? (h : Boundary source n) :
    ∃ place, Location.ofOffset? source n = some place := by
  obtain ⟨before, after, rfl, rfl⟩ := h
  exact ⟨_, Location.ofOffset?_byteLength before after⟩

end Text

/-- What is said at an offset between two characters **can be reported**. -/
theorem Diagnostic.exists_report? {source : List Char} {d : Diagnostic}
    (h : Text.Boundary source d.offset) : ∃ report, d.report? source = some report := by
  obtain ⟨place, hplace⟩ := h.exists_ofOffset?
  exact ⟨_, by rw [Diagnostic.report?, Report.at?, hplace]; rfl⟩

/-! ## What a lexeme takes -/

namespace Lexeme

variable {c : Char} {cs text : List Char} {kind : Token.Kind} {value : Option Int64}

theorem takeWhile_append_prefix {p : Char → Bool} {d : Char} :
    ∀ cs : List Char, d ∈ cs → p d = false → (∀ e, p e = false → e = d) →
      cs.takeWhile p ++ [d] <+: cs
  | [], h, _, _ => absurd h List.not_mem_nil
  | e :: cs, h, hd, honly => by
    by_cases he : p e = true
    · have hmem : d ∈ cs := (List.mem_cons.mp h).resolve_left fun heq => by
        rw [heq, he] at hd
        cases hd
      rw [List.takeWhile_cons_of_pos he, List.cons_append, List.cons_prefix_cons]
      exact ⟨rfl, takeWhile_append_prefix cs hmem hd honly⟩
    · obtain rfl := honly e (Bool.eq_false_iff.mpr he)
      rw [List.takeWhile_cons_of_neg he]
      exact ⟨cs, rfl⟩

/-- A token is read by one of five readers, each with the characters that it starts at. -/
theorem reader_of_first (h : first c cs = .ok (.token kind text value)) :
    isWordStart c = true ∧ word c cs = .token kind text value ∨
    number c cs = .token kind text value ∨
    c = '"' ∧ string cs = .ok (.token kind text value) ∨
    c = '\'' ∧ character cs = .ok (.token kind text value) ∨
    operator c cs = .ok (.token kind text value) := by
  unfold first at h
  split at h
  · cases h
  split at h
  · cases h
  split at h
  · cases h
  split at h
  next hstart => exact .inl ⟨hstart, Except.ok.inj h⟩
  split at h
  · exact .inr (.inl (Except.ok.inj h))
  split at h
  next hquote => exact .inr (.inr (.inl ⟨hquote, h⟩))
  split at h
  next hquote => exact .inr (.inr (.inr (.inl ⟨hquote, h⟩)))
  exact .inr (.inr (.inr (.inr h)))

theorem string_eq_ok (h : string cs = .ok (.token kind text value)) :
    '"' ∈ cs ∧ kind = .str ∧ text = '"' :: cs.takeWhile (· != '"') ++ ['"'] := by
  unfold string at h
  split at h
  next hmem =>
    cases h
    exact ⟨hmem, rfl, rfl⟩
  · cases h

theorem character_eq_ok (h : character cs = .ok (.token kind text value)) :
    kind = .num ∧ ∃ d rest, cs = d :: '\'' :: rest ∧ text = ['\'', d, '\''] := by
  unfold character at h
  split at h
  next d rest =>
    split at h
    · cases h
      exact ⟨rfl, d, rest, rfl, rfl⟩
    · cases h
  · cases h

theorem operator_eq_ok (h : operator c cs = .ok (.token kind text value)) :
    kind = .punctuator ∧ (text = [c] ∨ text = [c, '='] ∧ cs.headD ' ' = '=') := by
  unfold operator at h
  split at h
  next hpair =>
    cases h
    rw [isOperatorPair, Bool.and_eq_true, beq_iff_eq] at hpair
    exact ⟨rfl, .inr ⟨rfl, hpair.1⟩⟩
  split at h
  · cases h
    exact ⟨rfl, .inl rfl⟩
  · cases h

/-- The text of a token is what stands **at the start** of the text it is read from. -/
theorem prefix_of_first (h : first c cs = .ok (.token kind text value)) : text <+: c :: cs := by
  rcases reader_of_first h with ⟨-, h⟩ | h | ⟨rfl, h⟩ | ⟨rfl, h⟩ | h
  · cases h
    exact (List.prefix_cons_inj c).mpr (List.takeWhile_prefix _)
  · cases h
    exact (List.prefix_cons_inj c).mpr (List.takeWhile_prefix _)
  · obtain ⟨hmem, -, rfl⟩ := string_eq_ok h
    rw [List.cons_append, List.cons_prefix_cons]
    exact ⟨rfl, takeWhile_append_prefix cs hmem (by simp) (by simp)⟩
  · obtain ⟨-, d, rest, rfl, rfl⟩ := character_eq_ok h
    exact ⟨rest, rfl⟩
  · rcases (operator_eq_ok h).2 with rfl | ⟨rfl, heq⟩
    · exact ⟨cs, rfl⟩
    · cases cs with
      | nil => cases heq
      | cons d rest =>
        obtain rfl : d = '=' := heq
        exact ⟨rest, rfl⟩

/-- **An identifier is a word.** -/
theorem isWord_of_first (h : first c cs = .ok (.token .ident text value)) :
    IsWord (String.ofList text) := by
  rcases reader_of_first h with ⟨hstart, h⟩ | h | ⟨-, h⟩ | ⟨-, h⟩ | h
  · obtain ⟨-, rfl, -⟩ := Lexeme.token.inj h
    refine ⟨c, _, rfl, hstart, fun d hd => ?_⟩
    exact List.all_eq_true.mp (List.all_takeWhile (l := cs)) d hd
  · cases h
  · cases (string_eq_ok h).2.1
  · cases (character_eq_ok h).1
  · cases (operator_eq_ok h).1

/-- No lexeme starts where one should for a **lexical** cause. -/
theorem category_of_first {cause : Cause} (h : first c cs = .error cause) :
    cause.category = .lexical := by
  have hstring : Errs (string cs) (·.category = .lexical) := by
    unfold string
    split <;> simp [Cause.category]
  have hcharacter : Errs (character cs) (·.category = .lexical) := by
    unfold character
    split
    · split <;> simp [Cause.category]
    · simp [Cause.category]
  have hoperator : Errs (operator c cs) (·.category = .lexical) := by
    unfold operator
    split
    · exact errs_ok _ _
    · split <;> simp [Cause.category]
  unfold first at h
  repeat' split at h
  all_goals first
    | cases h
    | exact hstring _ h
    | exact hcharacter _ h
    | exact hoperator _ h

end Lexeme

/-! ## Tokens -/

/-- The token is what a lexeme of the source was read as, or stands **between two of its characters**
and takes none. -/
inductive Token.ReadFrom (source : List Char) : Token → Prop
  | lexeme {before : List Char} {c : Char} {cs : List Char} {kind : Token.Kind} {text : List Char}
      {value : Option Int64} (hsource : source = before ++ c :: cs)
      (hread : Lexeme.first c cs = .ok (.token kind text value)) :
      ReadFrom source ⟨kind, String.ofList text, value, Text.byteLength before,
        Text.byteLength text⟩
  | lineEnd {before after : List Char} (hsource : source = before ++ after) :
      ReadFrom source (.lineEnd (Text.byteLength before))
  | sourceEnd : ReadFrom source (.sourceEnd (Text.byteLength source))

namespace Token.ReadFrom

variable {source : List Char} {t : Token}

theorem boundary_loc (h : t.ReadFrom source) : Text.Boundary source t.loc := by
  cases h with
  | lexeme hsource => exact hsource ▸ Text.boundary_append _ _
  | lineEnd hsource => exact hsource ▸ Text.boundary_append _ _
  | sourceEnd => exact Text.boundary_byteLength source

/-- A token that takes any of the source **has it as its text**. -/
theorem slice?_eq (h : t.ReadFrom source) (hlen : t.len ≠ 0) :
    Text.slice? t.loc (t.loc + t.len) source = some t.text.toList := by
  cases h with
  | lexeme hsource hread =>
    obtain ⟨rest, hrest⟩ := Lexeme.prefix_of_first hread
    rw [hsource, ← hrest, String.toList_ofList]
    exact Text.slice?_append _ _ _
  | lineEnd | sourceEnd => exact absurd rfl hlen

theorem boundary_end (h : t.ReadFrom source) : Text.Boundary source (t.loc + t.len) := by
  cases h with
  | @lexeme before c cs kind text value hsource hread =>
    obtain ⟨rest, hrest⟩ := Lexeme.prefix_of_first hread
    refine ⟨before ++ text, rest, ?_, by simp⟩
    rw [hsource, ← hrest, List.append_assoc]
  | lineEnd hsource => exact hsource ▸ Text.boundary_append _ _
  | sourceEnd => exact Text.boundary_byteLength source

theorem isWord (h : t.ReadFrom source) (hkind : t.kind = .ident) : IsWord t.text := by
  cases h with
  | lexeme hsource hread =>
    obtain rfl := hkind
    exact Lexeme.isWord_of_first hread
  | lineEnd | sourceEnd => cases hkind

end Token.ReadFrom

section Scan

variable {source : List Char}

/-- The scan of what stands behind `before` reads tokens of the source, **whatever it passes over**
first. -/
theorem readFrom_scan (covered : Nat) (pending : Bool) (before cs : List Char)
    (hsource : source = before ++ cs) :
    Yields (scan covered pending (Text.byteLength before) cs) fun ts => ∀ t ∈ ts,
      t.ReadFrom source := by
  induction cs generalizing covered pending before with
  | nil =>
    obtain rfl : source = before := by rw [hsource, List.append_nil]
    refine (yields_ok _ _).mpr fun t ht => ?_
    obtain rfl := List.mem_singleton.mp ht
    exact .sourceEnd
  | cons c cs ih =>
    have hnext (covered : Nat) (pending : Bool) :
        Yields (scan covered pending (Text.byteLength before + c.utf8Size) cs) fun ts => ∀ t ∈ ts,
          t.ReadFrom source := by
      have hlen : Text.byteLength (before ++ [c]) = Text.byteLength before + c.utf8Size := by simp
      exact hlen ▸ ih covered pending (before ++ [c]) (by rw [hsource, List.append_cons])
    cases covered with
    | succ covered => exact hnext covered pending
    | zero =>
      simp only [scan]
      split
      · exact yields_error _ _
      · exact hnext 0 pending
      · refine (yields_bind _ _ _).mpr ((hnext 0 false).mono fun rest hrest => ?_)
        refine (yields_pure _ _).mpr ?_
        split
        · exact List.forall_mem_cons.mpr ⟨.lineEnd hsource, hrest⟩
        · exact hrest
      · exact hnext _ pending
      · next hfirst =>
        refine (yields_bind _ _ _).mpr ((hnext _ _).mono fun rest hrest => ?_)
        exact (yields_pure _ _).mpr (List.forall_mem_cons.mpr ⟨.lexeme hsource hfirst, hrest⟩)

/-- The scan is stopped for a lexical cause, **between two characters**. -/
theorem errs_scan (covered : Nat) (pending : Bool) (before cs : List Char)
    (hsource : source = before ++ cs) :
    Errs (scan covered pending (Text.byteLength before) cs) fun d =>
      d.cause.category = .lexical ∧ Text.Boundary source d.offset := by
  induction cs generalizing covered pending before with
  | nil => exact errs_ok _ _
  | cons c cs ih =>
    have hnext (covered : Nat) (pending : Bool) :
        Errs (scan covered pending (Text.byteLength before + c.utf8Size) cs) fun d =>
          d.cause.category = .lexical ∧ Text.Boundary source d.offset := by
      have hlen : Text.byteLength (before ++ [c]) = Text.byteLength before + c.utf8Size := by simp
      exact hlen ▸ ih covered pending (before ++ [c]) (by rw [hsource, List.append_cons])
    cases covered with
    | succ covered => exact hnext covered pending
    | zero =>
      simp only [scan]
      split
      · next hfirst =>
        exact (errs_error _ _).mpr
          ⟨Lexeme.category_of_first hfirst, hsource ▸ Text.boundary_append _ _⟩
      · exact hnext 0 pending
      · exact (errs_bind _ _ _).mpr ⟨hnext 0 false, fun _ _ => errs_pure _ _⟩
      · exact hnext _ pending
      · exact (errs_bind _ _ _).mpr ⟨hnext _ _, fun _ _ => errs_pure _ _⟩

/-- **Every token is read from the source.** -/
theorem readFrom_of_tokenize {tokens : List Token} (h : tokenize source = .ok tokens) :
    ∀ t ∈ tokens, t.ReadFrom source :=
  readFrom_scan 0 false [] source rfl tokens h

/-- The scan ends with the **end of the source**. -/
theorem sourceEnd_mem_scan (covered : Nat) (pending : Bool) (loc : Nat) (cs : List Char) :
    Yields (scan covered pending loc cs) fun ts => .sourceEnd (loc + Text.byteLength cs) ∈ ts := by
  induction cs generalizing covered pending loc with
  | nil => exact (yields_ok _ _).mpr (List.mem_singleton.mpr rfl)
  | cons c cs ih =>
    rw [Text.byteLength_cons, ← Nat.add_assoc]
    cases covered with
    | succ covered => exact ih covered pending _
    | zero =>
      simp only [scan]
      split
      · exact yields_error _ _
      · exact ih 0 pending _
      · refine (yields_bind _ _ _).mpr ((ih 0 false _).mono fun rest hrest => ?_)
        refine (yields_pure _ _).mpr ?_
        split
        · exact List.mem_cons_of_mem _ hrest
        · exact hrest
      · exact ih _ pending _
      · refine (yields_bind _ _ _).mpr ((ih _ _ _).mono fun rest hrest => ?_)
        exact (yields_pure _ _).mpr (List.mem_cons_of_mem _ hrest)

theorem sourceEnd_mem_of_tokenize {tokens : List Token} (h : tokenize source = .ok tokens) :
    .sourceEnd (Text.byteLength source) ∈ tokens := by
  have hmem := sourceEnd_mem_scan 0 false 0 source tokens h
  rwa [Nat.zero_add] at hmem

theorem lexical_of_tokenize {d : Diagnostic} (h : tokenize source = .error d) :
    d.cause.category = .lexical ∧ Text.Boundary source d.offset :=
  errs_scan 0 false [] source rfl d h

end Scan

end StackCompiler

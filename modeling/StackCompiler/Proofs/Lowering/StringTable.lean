import StackCompiler.Proofs.Grammar.Interning
import StackCompiler.Proofs.Lowering.Closed
import StackCompiler.Proofs.Lowering.Strings
import StackCompiler.Proofs.Typing.Rebound

/-!
# Proofs/Lowering/StringTable — a string from its quotation marks to its descriptor

The body of a string token is what stands between its quotation marks; it has one entry in the table, the
data section holds the bytes of the entry, and the code reads them through the entry's descriptor
(`holdsStrings_of_compile`).
-/

namespace StackCompiler

open Lowering

/-! ## Bodies -/

section Bodies

variable {source : List Char} {tokens : List Token}

theorem Lexeme.wordKind_ne_str (word : String) : wordKind word ≠ .str := by
  unfold wordKind
  split
  · exact nofun
  split
  · exact nofun
  split <;> exact nofun

/-- The body of a quoted text is **what is between the quotation marks**. -/
theorem Token.toList_body_of_quoted {t : Token} {cs : List Char} (h : t.text.toList = '"' :: (cs ++ ['"'])) :
    t.body.toList = cs := by
  unfold body
  rw [h]
  simp

/-- A string token is **its body between quotation marks**, with none inside. -/
theorem quoted_of_str (h : tokenize source = .ok tokens) {t : Token} (ht : t ∈ tokens)
    (hkind : t.kind = .str) : t.text.toList = '"' :: (t.body.toList ++ ['"']) ∧ '"' ∉ t.body.toList := by
  cases readFrom_of_tokenize h t ht with
  | @lexeme before c cs kind text value hsource hread =>
    obtain rfl : kind = .str := hkind
    have htext : text = '"' :: (cs.takeWhile (· != '"') ++ ['"']) := by
      rcases Lexeme.reader_of_first hread with ⟨-, hword⟩ | hnumber | ⟨-, hstring⟩ | ⟨-, hchar⟩ | hsign
      · exact absurd (Lexeme.token.inj hword).1 (Lexeme.wordKind_ne_str _)
      · cases hnumber
      · exact (Lexeme.string_eq_ok hstring).2.2
      · exact absurd (Lexeme.character_eq_ok hchar).1 nofun
      · exact absurd (Lexeme.operator_eq_ok hsign).1 nofun
    rw [← String.toList_ofList (l := text)] at htext
    rw [Token.toList_body_of_quoted htext]
    refine ⟨htext, fun hmem => ?_⟩
    have hne := List.all_eq_true.mp (List.all_takeWhile (p := (· != '"')) (l := cs)) _ hmem
    exact absurd hne (by decide)
  | lineEnd | sourceEnd => cases hkind

end Bodies

/-! ## Data -/

/-- The lines of a string: its bytes behind the one label, and behind the other one **their address and
their number**. -/
def Datum.ofString (i : Nat) (bytes : List UInt8) : List Datum :=
  .label (.string i) :: ((if bytes.isEmpty then [] else [.bytes bytes]) ++
    [.align, .label (.descriptor i), .address (.string i), .word bytes.length])

/-- Whether the label is one of those of a string. -/
def Label.isOfString : Label → Bool
  | .string _ | .descriptor _ => true
  | _ => false

section Data

variable {p : Program} {data : List Datum}

theorem toByteArray_utf8 (s : String) : (utf8 s).toByteArray = s.toUTF8 :=
  String.utf8Encode_toList

theorem exists_data_of_string (h : programData p = .ok data) {i : Nat} {body : String}
    (hi : p.strings[i]? = some body) : ∃ bytes : List UInt8, bytes.toByteArray = body.toUTF8 ∧
      Datum.ofString i bytes <:+: data := by
  obtain ⟨globals, -, h⟩ := bind_eq_ok_iff.mp h
  cases h
  refine ⟨utf8 body, toByteArray_utf8 body, ?_⟩
  have hmem : stringData body i ∈ p.strings.zipIdx.map fun s => stringData s.1 s.2 :=
    List.mem_map.mpr ⟨(body, i), List.mk_mem_zipIdx_iff_getElem?.mpr hi, rfl⟩
  have hin : Datum.ofString i (utf8 body) <:+:
      (p.strings.zipIdx.map fun s => stringData s.1 s.2).flatten := by
    obtain ⟨before, after, hsplit⟩ := List.append_of_mem hmem
    rw [hsplit, List.flatten_append, List.flatten_cons]
    exact ⟨before.flatten, after.flatten, by rw [List.append_assoc]; rfl⟩
  exact hin.trans (List.infix_append _ _ _)

/-- The labels of strings have **the numbers of the table**, in their order. -/
theorem filter_isOfString (h : programData p = .ok data) :
    (data.filterMap Datum.label?).filter Label.isOfString =
      (List.range p.strings.length).flatMap fun i => [.string i, .descriptor i] := by
  rw [labels_programData h, List.filter_append, List.filter_append]
  have hglobals : ((p.globalNames.map fun name => Label.symbol (p.symbol name)).filter
      Label.isOfString) = [] := by
    rw [List.filter_eq_nil_iff]
    simp [Label.isOfString]
  rw [hglobals, List.nil_append, List.filter_eq_self.mpr]
  · exact List.append_nil _
  · intro l hl
    obtain ⟨i, -, hl⟩ := List.mem_flatMap.mp hl
    rcases List.mem_pair.mp hl with rfl | rfl <;> rfl

end Data

/-! ## Compilations -/

/-- The assembly holds the strings of the source. -/
structure Compilation.HoldsStrings (source : List Char) (c : Compilation) : Prop where
  /-- What is quoted are the bodies. -/
  quoted : ∀ t ∈ c.tokens, t.kind = .str →
    t.text.toList = '"' :: (t.body.toList ++ ['"']) ∧ '"' ∉ t.body.toList
  /-- The table has the bodies in the order of their first uses. -/
  interned : ∃ read, Program.ofTokens source c.tokens = .ok read ∧
    Interned c.tokens read.vars c.program.strings c.program.literals
  /-- The data section has the bytes of each entry, and its descriptor. -/
  data : ∀ i body, c.program.strings[i]? = some body → ∃ bytes : List UInt8,
    bytes.toByteArray = body.toUTF8 ∧ Datum.ofString i bytes <:+: c.assembly.data
  labels : (c.assembly.data.filterMap Datum.label?).filter Label.isOfString =
    (List.range c.program.strings.length).flatMap fun i => [.string i, .descriptor i]
  once : ∀ i < c.program.strings.length, c.assembly.names.count (Label.string i).text = 1 ∧
    c.assembly.names.count (Label.descriptor i).text = 1
  /-- Each string in a function is read through its descriptor in the function's lines. -/
  code : ∀ f ∈ c.program.funcs, ∃ listing, c.Emits f listing ∧
    ∀ loc i, (loc, i) ∈ f.body.flatMap Stmt.literals → listing.ReadsString i

section Compiled

variable {source : List Char} {c : Compilation}

theorem Compilation.steps (hc : compile source = .ok c) : tokenize source = .ok c.tokens ∧
    ∃ read, Program.ofTokens source c.tokens = .ok read ∧ read.resolve = .ok c.program := by
  obtain ⟨tokens, htokens, h⟩ := bind_eq_ok_iff.mp hc
  obtain ⟨read, hread, h⟩ := bind_eq_ok_iff.mp h
  obtain ⟨p, hresolve, h⟩ := bind_eq_ok_iff.mp h
  obtain ⟨a, -, h⟩ := bind_eq_ok_iff.mp h
  cases h
  exact ⟨tokenize_of_tokensOf htokens, read, hread, hresolve⟩

theorem Compilation.Emits.reads (hc : compile source = .ok c) {f : Function} {listing : Listing}
    (hl : c.Emits f listing) {x : Nat × Nat} (hx : x ∈ f.body.flatMap Stmt.literals) :
    listing.ReadsString x.2 := by
  have hp := Program.typed_of_ofSource (compile_ok hc).1
  obtain ⟨st, hst, hx⟩ := List.mem_flatMap.mp hx
  obtain ⟨base, hcode⟩ := hl.code
  obtain ⟨params, body, -, hbody, -, hlisting⟩ := functionCode_ok hcode
  obtain ⟨base', hhas⟩ := has_stmtsCode (p := c.program)
    (.returnOf (c.program.functionSymbol f)) base st hst
  have hreads := hhas.reads (reads_stmtCode _ ((hp.funcs f hl.func).body st hst) x hx)
  exact (hreads ⟨0, hbody⟩).mono ⟨_, _, hlisting.symm⟩

/-- **Every string of a source comes to the assembly once.**  Each string token is a string of the
program, and so is the name of a local string that is given no value; equal bodies have one number,
the numbers are given out in the order of first uses; behind the labels of the number the data section has
the bytes of the body, and their address and number; and by these the code reads the string. -/
theorem holdsStrings_of_compile (hc : compile source = .ok c) : c.HoldsStrings source := by
  obtain ⟨htokens, read, hread, hresolve⟩ := c.steps hc
  have hprogram := Program.read_of_ofTokens hread
  have hresolved := hprogram.resolve_outcome.1 _ hresolve
  have hdata := c.exists_data hc
  have hnamed := Program.named_of_ofSource (compile_ok hc).1
  have hcount {l : Label} (hl : .label l ∈ c.assembly.data) (hlocal : l.isLocal = true) :
      c.assembly.names.count l.text = 1 := by
    refine hnamed.count_names (compile_ok hc).2 ?_ hlocal
    exact List.mem_append_left _ (label_mem_iff.mp hl)
  refine ⟨fun t ht => quoted_of_str htokens ht, ⟨read, hread, ?_⟩,
    fun i body hi => exists_data_of_string hdata hi, filter_isOfString hdata, fun i hi => ?_,
    fun f hf => ?_⟩
  · rw [hresolved.strings, hprogram.literals hresolve]
    exact Program.interned htokens hread
  · obtain ⟨hbytes, hdescriptor⟩ := string_mem_data hdata hi
    exact ⟨hcount hbytes rfl, hcount hdescriptor rfl⟩
  · obtain ⟨listing, hl⟩ := Compilation.exists_emits hc hf
    exact ⟨listing, hl, fun loc i hx => hl.reads hc hx⟩

end Compiled

/-- A string of two lines in two places, with a character of two bytes, an empty one, a string of which
a byte is read, and strings **without a value**, of which one is package-level. -/
def textOfStrings : String :=
  "package p var g string; func main() \x7b var s string; t, u := \"é\n\", \"\"
  println(t, \"a\", \"é\n\", \"abc\"[1]); var z string \x7d"

theorem holdsStrings_of_strings :
    ∃ c, compile textOfStrings.toList = .ok c ∧ c.program.strings = ["", "é\n", "a", "abc"] ∧
      c.program.literals.length = 7 ∧ c.HoldsStrings textOfStrings.toList := by
  obtain ⟨c, hc, htest⟩ := exists_ok_of_text (s := textOfStrings) rfl (f := compile)
    (P := fun _ c => c.program.strings == ["", "é\n", "a", "abc"] && c.program.literals.length == 7)
    (by decide +kernel)
  simp only [Bool.and_eq_true, beq_iff_eq] at htest
  exact ⟨c, hc, htest.1, htest.2, holdsStrings_of_compile hc⟩

end StackCompiler

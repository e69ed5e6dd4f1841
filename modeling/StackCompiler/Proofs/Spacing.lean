import StackCompiler.Compilation
import StackCompiler.Proofs.Grammar.Unplaced
import StackCompiler.Proofs.Lowering.Numbered
import StackCompiler.Proofs.Typing.Numbered
import StackCompiler.Proofs.Typing.Places

/-!
# Proofs/Spacing — what stands between the tokens

Blanks, comments and the places of tokens have **no influence on what a source comes to**: sources
whose tokens are alike, with line breaks behind the same braces, come to the same assembly, or to
failures with one wording.
-/

namespace StackCompiler

/-- What is told of a failure but for its place: its category and wording, or the fault. -/
def Failure.wording (source : List Char) (failure : Failure) :
    Except Fault (Category × String) :=
  (failure.report source).map fun report => (report.category, report.message)

/-- What a source comes to: its assembly, or what is told of its failure **but for the place**. -/
def verdict (source : List Char) : Except (Except Fault (Category × String)) Assembly :=
  ((compile source).map (·.assembly)).mapError (Failure.wording source)

/-- A failure that can be told of. -/
def Failure.Reported (source : List Char) (failure : Failure) : Prop :=
  ∀ d, failure = .refused d → ∃ report, d.report? source = some report

section Wording

variable {source source' : List Char} {failure failure' : Failure}

theorem Failure.wording_refused {d : Diagnostic} {report : Report}
    (h : d.report? source = some report) :
    (Failure.refused d).wording source = .ok (d.cause.category, d.cause.message) := by
  have hreport : (Failure.refused d).report source = .ok report := by
    rw [Failure.report, h, Option.elim_some]
  obtain ⟨place, -, rfl⟩ := Option.map_eq_some_iff.mp h
  rw [wording, hreport]
  rfl

/-- Failures for one reason have **one wording**, if they can be told of. -/
theorem Failure.wording_eq (h : failure.unplaced = failure'.unplaced)
    (hf : failure.Reported source) (hf' : failure'.Reported source') :
    failure.wording source = failure'.wording source' := by
  cases failure with
  | broken fault =>
    cases failure' <;> cases h
    rfl
  | refused d =>
    cases failure' with
    | broken fault' => cases h
    | refused d' =>
      have hcause : d.cause = d'.cause := (Diagnostic.mk.inj (Failure.refused.inj h)).1
      obtain ⟨report, hreport⟩ := hf d rfl
      obtain ⟨report', hreport'⟩ := hf' d' rfl
      rw [wording_refused hreport, wording_refused hreport', hcause]

end Wording

section Compile

variable {source source' : List Char} {tokens tokens' : List Token}

/-- What a source with tokens comes to, **stage by stage**. -/
theorem compile_eq (h : tokenize source = .ok tokens) :
    compile source = do
      let read ← Program.ofTokens source tokens
      let program ← read.resolve
      return ⟨tokens, program, ← assemblyOf program⟩ := by
  rw [compile, tokensOf, h]
  rfl

/-- A source that memory can hold is **refused where it can be told of**. -/
theorem errs_compile_reported (hsize : Text.byteLength source < Grammar.placeLimit)
    (h : tokenize source = .ok tokens) :
    Errs (compile source) (Failure.Reported source) := by
  have hc := covers_of_tokenize h
  rw [compile_eq h]
  refine (errs_bind _ _ _).mpr ⟨fun failure hfailure d hd => ?_, fun read hread =>
    (errs_bind _ _ _).mpr ⟨fun failure hfailure d hd => ?_, fun p _ =>
      (errs_bind _ _ _).mpr ⟨fun failure hfailure d hd => ?_, fun _ _ => errs_pure _ _⟩⟩⟩
  · subst hd
    obtain ⟨_, hd, hcategory, hoffset⟩ := (hc.stoppedAt hfailure).resolve_right hsize.not_ge
    obtain rfl := Failure.refused.inj hd
    exact (hc.tellsOf hcategory hoffset).report
  · obtain ⟨hcategory, hoffset⟩ := (hc.placed hread).errs_resolve failure hfailure d hd
    exact (hc.tellsOf hcategory hoffset).report
  · subst hd
    unfold assemblyOf at hfailure
    cases hp : p.assemble <;> rw [hp] at hfailure <;> cases hfailure

theorem agree_assemblyOf {p p' : Program} (h : SameBy Program.unplaced p p') :
    Agree (assemblyOf p) (assemblyOf p') Eq := by
  rw [assemblyOf, assemblyOf, ← p.assemble_unplaced, ← p'.assemble_unplaced, h]
  exact Agree.refl _

/-- **Two sources that are spaced alike** go through all the stages side by side. -/
theorem agree_compile (hsize : Text.byteLength source < Grammar.placeLimit)
    (hsize' : Text.byteLength source' < Grammar.placeLimit) (h : tokenize source = .ok tokens)
    (h' : tokenize source' = .ok tokens') (hspaced : SpacedAlike source source' tokens tokens') :
    Agree (compile source) (compile source') (SameBy Compilation.assembly) := by
  rw [compile_eq h, compile_eq h']
  have hread := @agree_ofTokens ⟨source, tokens, hsize, covers_of_tokenize h⟩
    ⟨source', tokens', hsize', covers_of_tokenize h'⟩ hspaced
  refine hread.bind fun read read' hread => ?_
  have hresolve : Agree read'.resolve read.unplaced.resolve (SameBy Program.unplaced) :=
    hread ▸ read'.agree_resolve
  refine (read.agree_resolve.of_common hresolve).bind fun p p' hp => ?_
  exact (agree_assemblyOf hp).bind fun _ _ => id

/-- **Spacing has no influence but on places**: sources with tokens that are alike, one by one, and
with line breaks behind the same braces come to one assembly, or to failures with one category and
wording, or to one fault. -/
theorem verdict_eq_of_spacedAlike (hsize : Text.byteLength source < Grammar.placeLimit)
    (hsize' : Text.byteLength source' < Grammar.placeLimit) (h : tokenize source = .ok tokens)
    (h' : tokenize source' = .ok tokens') (hspaced : SpacedAlike source source' tokens tokens') :
    verdict source = verdict source' := by
  have hagree := agree_compile hsize hsize' h h' hspaced
  have hreported := errs_compile_reported hsize h
  have hreported' := errs_compile_reported hsize' h'
  unfold verdict
  cases hc : compile source <;> cases hc' : compile source' <;> rw [hc, hc'] at hagree
  · exact congrArg Except.error (Failure.wording_eq hagree (hreported _ hc) (hreported' _ hc'))
  · exact hagree.elim
  · exact hagree.elim
  · exact congrArg Except.ok hagree

end Compile

/-- An array of which an element is printed. -/
def textClose : String :=
  "package p\nvar a [2]int = \x7b1, 2\x7d\nfunc main() \x7b print(a[0])\n\x7d"

/-- The same tokens, with comments, blanks and empty lines between them. -/
def textSpaced : String :=
  "package p // é\n\nvar a\t[2]int=\x7b1,2\x7d // two\n func main( )\x7b\n\nprint( a [0] ) //\n \x7d"

/-- The two texts come to **one verdict**. -/
theorem verdict_eq_of_textSpaced :
    ∃ tokens tokens', tokenize textClose.toList = .ok tokens ∧
      tokenize textSpaced.toList = .ok tokens' ∧
      SpacedAlike textClose.toList textSpaced.toList tokens tokens' ∧
      verdict textClose.toList = verdict textSpaced.toList := by
  obtain ⟨tokens, htokens, hspaced⟩ := exists_ok_of_text (s := textClose) rfl (f := tokenize)
    (P := fun source tokens => (tokenize textSpaced.toList).toOption.any fun tokens' =>
      decide (SpacedAlike source textSpaced.toList tokens tokens')) (by decide +kernel)
  obtain ⟨tokens', htokens', hspaced⟩ := exists_ok_of_any hspaced
  have hspaced := of_decide_eq_true hspaced
  exact ⟨tokens, tokens', htokens, htokens', hspaced, verdict_eq_of_spacedAlike (by decide +kernel)
    (by decide +kernel) htokens htokens' hspaced⟩

end StackCompiler

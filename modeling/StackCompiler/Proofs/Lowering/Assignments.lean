import Mathlib.Data.List.Pairwise
import StackCompiler.Proofs.Lowering.Values
import StackCompiler.Proofs.Typing.Binding

/-!
# Proofs/Lowering/Assignments — parallel assignments

The code of an assignment computes all values before it stores any, and stores **the last one first**.
So each target gets the value that its own right-hand side had before, whatever the assignment permutes
and however many words each value has; all other variables keep theirs, and the stack is as high as it
was (`assigned_of_compile`).
-/

namespace StackCompiler

open Machine

/-! ## What a body sees -/

/-- The variable is a local of the function, or a package-level one. -/
def Program.Sees (p : Program) (f : Function) (id : VarId) : Prop :=
  id ∈ f.locals ∨ id ∈ p.globals

/-- What a variable's node refers to is seen in the function. -/
def Expr.SeesRule (p : Program) (f : Function) : Expr → Prop
  | .var id _ _ => p.Sees f id
  | _ => True

section Rebound

variable {R : VarId → VarId → Prop} {p : Program} {f : Function}

theorem Expr.Rebound.sees (hR : ∀ id id', R id id' → p.Sees f id') {e' : Expr} :
    ∀ {e : Expr}, e.Rebound R e' → e'.Everywhere (Expr.SeesRule p f) := by
  induction e' with
  | num => exact fun _ => .num trivial
  | str => exact fun _ => .str trivial
  | var id ty loc => exact fun | .var h => .var (hR _ _ h)
  | addr _ _ _ ih => exact fun | .addr h => .addr trivial (ih h)
  | deref _ _ _ ih => exact fun | .deref h => .deref trivial (ih h)
  | binary _ _ _ _ _ ihl ihr => exact fun | .binary hl hr => .binary trivial (ihl hl) (ihr hr)
  | index _ _ _ _ ihb ihp => exact fun | .index hb hp => .index trivial (ihb hb) (ihp hp)
  | call _ args _ _ ih =>
    exact fun
      | .call h => .call trivial fun arg harg => by
        obtain ⟨_, -, h⟩ := exists_of_forall₂ h.flip harg
        exact ih arg harg h

theorem Stmt.Rebound.sees (hR : ∀ id id', R id id' → p.Sees f id') {st' : Stmt} :
    ∀ {st : Stmt}, st.Rebound R st' → st'.Everywhere (Expr.SeesRule p f) fun _ => True := by
  have heach {es es' : List Expr} (h : List.Forall₂ (Expr.Rebound R) es es') :
      ∀ e ∈ es', e.Everywhere (Expr.SeesRule p f) := fun e he => by
    obtain ⟨_, -, h⟩ := exists_of_forall₂ h.flip he
    exact h.sees hR
  have hoptional {e e' : Option Expr} (h : Option.Rel (Expr.Rebound R) e e') :
      ∀ x ∈ e', x.Everywhere (Expr.SeesRule p f) := fun x hx => by
    cases h with
    | some h => cases hx; exact h.sees hR
    | none => cases hx
  induction st' with
  | expr => exact fun | .expr h => .expr trivial (h.sees hR)
  | ret => exact fun | .ret h => .ret trivial (hoptional h)
  | block body ih =>
    exact fun
      | .block h => .block trivial fun st hst => by
        obtain ⟨_, -, h⟩ := exists_of_forall₂ h.flip hst
        exact ih st hst h
  | branch init cond body otherwise ihi ihb iho =>
    exact fun
      | .branch hi hc hb ho => .branch trivial (ihi hi) (hc.sees hR) (fun st hst => by
          obtain ⟨_, -, h⟩ := exists_of_forall₂ hb.flip hst
          exact ihb st hst h) (iho ho)
  | loop init cond post body loc ihi ihp ihb =>
    exact fun
      | .loop hi hc hp hb => .loop trivial (ihi hi) (hoptional hc) (ihp hp) fun st hst => by
          obtain ⟨_, -, h⟩ := exists_of_forall₂ hb.flip hst
          exact ihb st hst h
  | assign => exact fun | .assign ht hv => .assign trivial (heach ht) (heach hv)
  | print => exact fun | .print h => .print trivial (heach h)
  | empty => exact fun _ => .empty trivial

/-- In a program that has been resolved, **a body sees what it names**. -/
theorem Program.Read.sees {p p' : Program} (hread : p.Read) (h : p.resolve = .ok p') {f : Function}
    (hf : f ∈ p'.funcs) : ∀ st ∈ f.body, st.Everywhere (Expr.SeesRule p' f) fun _ => True := by
  have hp := hread.resolve_outcome.1 p' h
  have hbodies := yields_rebound_resolve (fun f hf => hread.declares hf)
    (fun f hf st hst => hread.bindable hp hf hst) p' h
  have hboth := List.Forall₂.mp (fun _ _ hhead hbody => And.intro hhead hbody) hp.heads hbodies
  obtain ⟨g, -, hhead, hbody⟩ := exists_of_forall₂ hboth.flip hf
  intro st hst
  obtain ⟨_, -, hrebound⟩ := exists_of_forall₂ hbody.flip hst
  refine hrebound.sees fun id id' hrefers => ?_
  obtain ⟨_, _, -, -, -, -, hvisible⟩ := hrefers
  rw [← hhead.locals] at hvisible
  exact hvisible.imp_right And.left

end Rebound

/-! ## Plain expressions -/

/-- The variable that the expression is. -/
def Expr.variable? : Expr → Option VarId
  | .var id _ _ => some id
  | _ => none

theorem Expr.variable?_eq_some {e : Expr} {id : VarId} (h : e.variable? = some id) :
    ∃ ty loc, e = .var id ty loc := by
  cases e with
  | var => cases h; exact ⟨_, _, rfl⟩
  | _ => cases h

/-- Where each member is turned into another, both lists are related **member by member**. -/
theorem forall₂_of_mapM {α β : Type} {g : α → Option β} {R : α → β → Prop} :
    ∀ {as : List α} {bs : List β}, as.mapM g = some bs →
      (∀ a ∈ as, ∀ b, g a = some b → b ∈ bs → R a b) → List.Forall₂ R as bs
  | [], _, h, _ => by cases h; exact .nil
  | a :: as, bs, h, hR => by
    rw [List.mapM_cons] at h
    obtain ⟨b, hb, h⟩ := Option.bind_eq_some_iff.mp h
    obtain ⟨rest, hrest, hcons⟩ := Option.bind_eq_some_iff.mp h
    cases hcons
    exact .cons (hR a List.mem_cons_self b hb List.mem_cons_self) (forall₂_of_mapM hrest
      fun a ha b hb hmem => hR a (List.mem_cons_of_mem _ ha) b hb (List.mem_cons_of_mem _ hmem))

/-- Whether the expression is made of literals, of variables that are no arrays, and of `+`, `-`, `*`
and comparisons. -/
def Expr.isPlain (p : Program) : Expr → Bool
  | .num .. | .str .. => true
  | .var id _ _ => !(Typing.tyOf p.vars id).isArray
  | .binary op lhs rhs _ _ => op != .div && lhs.isPlain p && rhs.isPlain p
  | _ => false

/-- The words of the expression's value, with variables as they stand in a machine: of a string **the
address and the number of its bytes**. -/
def Expr.wordsIn (env : Environment) (p : Program) (m : Machine) : Expr → Option (List Int64)
  | .num value _ _ => some [value]
  | .str string _ _ => p.strings[string]?.map fun text =>
    [env.address (.string string), .ofNat (Lowering.utf8 text).length]
  | .var id _ _ => p.vars[id]?.map fun v =>
    v.ty.wordsAt m.memory (m.locate env (Lowering.variablePlace p v))
  | .binary op lhs rhs _ _ =>
    match lhs.wordsIn env p m, rhs.wordsIn env p m with
    | some [a], some [b] => (op.apply a b).map ([·])
    | _, _ => none
  | _ => none

/-! ## Data, frame and stack -/

/-- The bytes of a variable; a number that is no variable's has none. -/
def Program.blockOf (env : Environment) (p : Program) (m : Machine) (id : VarId) : Block :=
  p.vars[id]?.elim ⟨0, 0⟩ fun v => ⟨m.locate env (Lowering.variablePlace p v), v.ty.size.toNat⟩

/-- The address and the length of a string, side by side. -/
def Environment.descriptor (env : Environment) (string : Nat) : Block :=
  ⟨env.address (.descriptor string), 16⟩

/-- What code of the function finds in memory: its frame, the package-level variables, and the
descriptors of strings. -/
def Program.blocks (env : Environment) (p : Program) (f : Function) (m : Machine) : List Block :=
  .below (m.regs .rbp) f.frame.toNat ::
    (p.globals.map (p.blockOf env m) ++ (List.range p.strings.length).map env.descriptor)

/-- The stack and all that code of the function finds in memory are **at disjoint addresses**, and the
descriptors of strings are as the data has them. -/
structure Program.InPlace (env : Environment) (p : Program) (f : Function) (stack : Block)
    (m : Machine) : Prop where
  apart : (stack :: p.blocks env f m).Pairwise Block.Apart
  described : ∀ (string : Nat) (text : String), p.strings[string]? = some text →
    m.memory.word (env.descriptor string).start = env.address (.string string) ∧
      m.memory.word ((env.descriptor string).start + 8) = .ofNat (Lowering.utf8 text).length

section Places

variable {env : Environment} {p : Program} {f : Function} {stack : Block} {m : Machine}
  {id id' : VarId} {v : Variable}

theorem Program.blockOf_eq (hv : p.vars[id]? = some v) : p.blockOf env m id =
    ⟨m.locate env (Lowering.variablePlace p v), v.ty.size.toNat⟩ := by
  rw [blockOf, hv]
  rfl

/-- Places are told by **the frame's base**. -/
theorem Program.locate_variablePlace {m' : Machine} (h : m'.regs .rbp = m.regs .rbp) (v : Variable) :
    m'.locate env (Lowering.variablePlace p v) = m.locate env (Lowering.variablePlace p v) := by
  unfold Lowering.variablePlace
  split
  · exact congrArg (· - Int64.ofInt v.offset) h
  · rfl

theorem Program.covers_blockOf_local (hv : p.vars[id]? = some v) (hlocal : v.isLocal = true)
    (a : Int64) : (p.blockOf env m id).Covers a ↔ v.Covers (m.regs .rbp) a := by
  have hplace : m.locate env (Lowering.variablePlace p v) = v.low (m.regs .rbp) := by
    rw [Lowering.variablePlace, if_pos hlocal]
    rfl
  rw [blockOf_eq hv, hplace]
  exact Int.lt_toNat

/-- The bytes of a local are **in the frame**. -/
theorem Program.Typed.frame_covers (hp : p.Typed) (hf : f ∈ p.funcs) (hid : id ∈ f.locals) {a : Int64}
    (ha : (p.blockOf env m id).Covers a) : (Block.below (m.regs .rbp) f.frame.toNat).Covers a := by
  obtain ⟨v, hv, hlocal, -, -, hsize, hframe⟩ := (hp.funcs f hf).locals id hid
  obtain ⟨-, hpos, hle⟩ := (hp.funcs f hf).frame
  rw [covers_blockOf_local hv hlocal, Variable.Covers] at ha
  have hlow : Memory.gap (m.regs .rbp - .ofNat f.frame.toNat) (v.low (m.regs .rbp)) =
      ((f.frame - v.offset) % 2 ^ 64).toNat := by
    have hbase : Int64.ofNat f.frame.toNat = .ofInt f.frame := by
      rw [← Int64.ofInt_eq_ofNat, Int.toNat_of_nonneg hpos]
    rw [hbase]
    exact Memory.gap_below _ _ _
  have hvia := Memory.gap_via (m.regs .rbp - .ofNat f.frame.toNat) (v.low (m.regs .rbp)) a
  unfold Word.greatest at hle
  change Memory.gap (m.regs .rbp - .ofNat f.frame.toNat) a < f.frame.toNat
  omega

theorem Program.Typed.exists_seen (hp : p.Typed) (hf : f ∈ p.funcs) (h : p.Sees f id) :
    ∃ v, p.vars[id]? = some v ∧ v.ty.isResolved = true ∧ 1 ≤ v.ty.size ∧ v.ty.size ≤ Word.greatest := by
  rcases h with hid | hid
  · obtain ⟨v, hv, -, hr, hproper, -⟩ := (hp.funcs f hf).locals id hid
    exact ⟨v, hv, hr, Ty.size_bounds hproper hr⟩
  · obtain ⟨v, hv, -, hr, -⟩ := hp.globals id hid
    exact ⟨v, hv, hr, Ty.size_bounds (hp.proper id v hv) hr⟩

namespace Program.InPlace

variable (h : p.InPlace env f stack m) (hp : p.Typed) (hf : f ∈ p.funcs)
include h hp hf

theorem stack_apart (hid : p.Sees f id) : stack.Apart (p.blockOf env m id) := by
  have hstack := (List.pairwise_cons.mp h.apart).1
  rcases hid with hid | hid
  · exact fun a hs ha => hstack _ List.mem_cons_self a hs (hp.frame_covers hf hid ha)
  · exact hstack _ (List.mem_cons_of_mem _ (List.mem_append_left _ (List.mem_map_of_mem hid)))

/-- **No two variables** have a byte in common. -/
theorem apart_of_ne (hid : p.Sees f id) (hid' : p.Sees f id') (hne : id ≠ id') :
    (p.blockOf env m id).Apart (p.blockOf env m id') := by
  obtain ⟨hframe, hdata⟩ := List.pairwise_cons.mp (List.pairwise_cons.mp h.apart).2
  have hglobal {g : VarId} (hg : g ∈ p.globals) : p.blockOf env m g ∈
      p.globals.map (p.blockOf env m) ++ (List.range p.strings.length).map env.descriptor :=
    List.mem_append_left _ (List.mem_map_of_mem hg)
  rcases hid with hid | hid <;> rcases hid' with hid' | hid'
  · obtain ⟨v, hv, hl, -, -, hsize, hoffset⟩ := (hp.funcs f hf).locals id hid
    obtain ⟨v', hv', hl', -, -, hsize', hoffset'⟩ := (hp.funcs f hf).locals id' hid'
    obtain ⟨-, -, hle⟩ := (hp.funcs f hf).frame
    intro a ha ha'
    rw [covers_blockOf_local hv hl] at ha
    rw [covers_blockOf_local hv' hl'] at ha'
    exact Variable.not_covers_of_apart ((hp.funcs f hf).apart id hid id' hid' hne v v' hv hv') hsize
      hsize' (hoffset.trans hle) (hoffset'.trans hle) ha ha'
  · exact fun a ha ha' => hframe _ (hglobal hid') a (hp.frame_covers hf hid ha) ha'
  · exact fun a ha ha' => hframe _ (hglobal hid) a (hp.frame_covers hf hid' ha') ha
  · have hglobals := List.pairwise_map.mp (List.pairwise_append.mp hdata).1
    have : Std.Symm fun g g' => (p.blockOf env m g).Apart (p.blockOf env m g') :=
      ⟨fun _ _ => Block.Apart.symm⟩
    exact hglobals.forall hid hid' hne

end Program.InPlace

end Places


namespace Lowering

variable {s : Stage} {p : Program} {f : Function} {m₀ m m' : Machine} {l l' : Listing}
  {ws ws' : List Int64} {changed : List Block}

/-! ## Computing the values -/

/-- Outside of the stack the machine is as the other one was. -/
structure Spared (s : Stage) (m₀ m : Machine) : Prop where
  rbp : m.regs .rbp = m₀.regs .rbp
  memory : ∀ a, ¬s.stack.Covers a → m.memory a = m₀.memory a

theorem Spared.turns (h : Spared s m₀ m) (hl : l.Turns s [] ws ws' m m') : Spared s m₀ m' :=
  ⟨hl.rbp.trans h.rbp, fun a ha => (hl.outside a ha nofun).trans (h.memory a ha)⟩

/-- What has room behind other code **has room where that has led**. -/
theorem room_append (h : l.Turns s changed ws ws' m m')
    (hroom : ws.length + (l ++ l').peak ≤ s.room) :
    ws.length + l.peak ≤ s.room ∧ ws'.length + l'.peak ≤ s.room := by
  have hgrowth := h.growth
  rw [Listing.peak_append] at hroom
  omega

theorem room_left (hroom : ws.length + (l ++ l').peak ≤ s.room) : ws.length + l.peak ≤ s.room := by
  rw [Listing.peak_append] at hroom
  omega

/-- **An operation takes the place of its operands**, one behind the other. -/
theorem turns_applied {op : BinaryOp} {a b v : Int64} {la lb lop : Listing} {m₁ m₂ : Machine}
    (hv : op.apply a b = some v) (hlop : (operate op).Gives lop)
    (ha : la.Turns s [] ws (a :: ws) m m₁) (hb : lb.Turns s [] (a :: ws) (b :: a :: ws) m₁ m₂)
    (hroom : ws.length + (la ++ lb ++ lop).peak ≤ s.room) :
    ∃ m', (la ++ lb ++ lop).Turns s [] ws (v :: ws) m m' := by
  have hboth := ha.append hb
  have hroom' := (room_append hboth hroom).2
  obtain ⟨m', hm'⟩ := turns_operate [] hv hlop hboth.carries (le_of_add_le_left hroom')
  exact ⟨m', hboth.append hm'⟩

section Values

/-- The address and the length of a string are put on the stack. -/
theorem turns_string (h : p.InPlace s.env f s.stack m₀) {string : Nat} {text : String}
    (htext : p.strings[string]? = some text)
    (hl : (descriptorAddress p string ++ load .string).Gives l) (hm : m.Carries s.top ws)
    (hspared : Spared s m₀ m) (hroom : ws.length + l.peak ≤ s.room) :
    ∃ m', l.Turns s [] ws
      (.ofNat (utf8 text).length :: s.env.address (.string string) :: ws) m m' := by
  have hlt : string < p.strings.length := (List.getElem?_eq_some_iff.mp htext).1
  obtain ⟨a, b, ha, hb, rfl⟩ := hl.append
  rw [descriptorAddress, if_pos hlt] at ha
  obtain ⟨m₁, hm₁⟩ := turns_pushAddress [] ha hm (room_left hroom)
  have happart : s.stack.Apart (s.env.descriptor string) :=
    (List.pairwise_cons.mp h.apart).1 _ (List.mem_cons_of_mem _ (List.mem_append_right _
      (List.mem_map_of_mem (List.mem_range.mpr hlt))))
  obtain ⟨m₂, hm₂⟩ := turns_load [] rfl rfl hb hm₁.carries (room_append hm₁ hroom).2 happart
  have hsame : Ty.string.wordsAt m₁.memory (s.env.descriptor string).start =
      Ty.string.wordsAt m₀.memory (s.env.descriptor string).start :=
    Ty.wordsAt_congr rfl rfl fun x hx => (hspared.turns hm₁).memory x fun hs => happart x hs hx
  obtain ⟨hstart, hlength⟩ := h.described string text htext
  have hwords : Ty.string.wordsAt m₁.memory (s.env.descriptor string).start =
      [s.env.address (.string string), .ofNat (utf8 text).length] := by
    rw [hsame, Ty.wordsAt, hstart, hlength]
  have hturns := hm₁.append hm₂
  change (a ++ b).Turns s [] ws
    ((Ty.string.wordsAt m₁.memory (s.env.descriptor string).start).reverse ++ ws) m m₂ at hturns
  rw [hwords] at hturns
  exact ⟨m₂, hturns⟩

variable (hp : p.Typed) (hf : f ∈ p.funcs) (h : p.InPlace s.env f s.stack m₀)
include hp hf h

omit hp hf h in
theorem variableAddress_eq {id : VarId} {v : Variable} (hv : p.vars[id]? = some v) :
    variableAddress p id = pushAddress (variablePlace p v) := by
  unfold variableAddress variablePlace
  rw [hv]
  dsimp only
  split <;> rfl

/-- The value of a variable that is no array is put on the stack. -/
theorem turns_variable {id : VarId} {v : Variable} (hv : p.vars[id]? = some v) (hid : p.Sees f id)
    (ha : v.ty.isArray = false) (hl : (variableAddress p id ++ load v.ty).Gives l)
    (hm : m.Carries s.top ws) (hspared : Spared s m₀ m) (hroom : ws.length + l.peak ≤ s.room) :
    ∃ m', l.Turns s [] ws
      ((v.ty.wordsAt m₀.memory (m₀.locate s.env (variablePlace p v))).reverse ++ ws) m m' := by
  obtain ⟨w, hw, hr, -⟩ := hp.exists_seen hf hid
  cases hv.symm.trans hw
  obtain ⟨a, b, ha', hb, rfl⟩ := hl.append
  rw [variableAddress_eq hv] at ha'
  obtain ⟨m₁, hm₁⟩ := turns_pushAddress [] ha' hm (room_left hroom)
  rw [p.locate_variablePlace hspared.rbp] at hm₁
  have happart := h.stack_apart hp hf hid
  rw [Program.blockOf_eq hv] at happart
  obtain ⟨m₂, hm₂⟩ := turns_load [] hr ha hb hm₁.carries (room_append hm₁ hroom).2 happart
  have hsame := Ty.wordsAt_congr hr ha (a := m₀.locate s.env (variablePlace p v)) fun x hx =>
    (hspared.turns hm₁).memory x fun hs => happart x hs hx
  exact ⟨m₂, hsame ▸ hm₁.append hm₂⟩

/-- **The code of a plain expression leaves the words of its value**, as it was before. -/
theorem turns_exprCode {own : VarId → Prop} {signatures : List Typing.Signature} {e : Expr}
    (he : TypedIn p own signatures e) (hsees : e.Everywhere (Expr.SeesRule p f))
    (hplain : e.isPlain p = true) (hr : e.ty.isResolved = true) :
    ∀ {l : Listing} {m : Machine} {ws : List Int64}, (exprCode p .value e).Gives l →
      m.Carries s.top ws → Spared s m₀ m → ws.length + l.peak ≤ s.room →
      ∃ words m', e.wordsIn s.env p m₀ = some words ∧ words.length = e.ty.words ∧
        l.Turns s [] ws (words.reverse ++ ws) m m' := by
  induction he with
  | @num value ty loc hrule =>
    intro l m ws hl hm _ hroom
    rw [exprCode] at hl
    obtain ⟨m', hm'⟩ := turns_pushed [] rfl rfl hl hm hroom
    exact ⟨[value], m', rfl, (Ty.words_eq_one hrule.1 hrule.2.1).symm, hm'⟩
  | @str string ty loc hrule =>
    intro l m ws hl hm hspared hroom
    obtain ⟨rfl, hlt⟩ := hrule
    have htext := List.getElem?_eq_getElem hlt
    rw [exprCode] at hl
    obtain ⟨m', hm'⟩ := turns_string h htext hl hm hspared hroom
    refine ⟨[s.env.address (.string string), .ofNat (utf8 p.strings[string]).length], m', ?_, rfl, hm'⟩
    rw [Expr.wordsIn, htext]
    rfl
  | @var id ty loc hrule =>
    intro l m ws hl hm hspared hroom
    cases hsees with
    | var hid =>
    obtain ⟨v, hv, hrv, -⟩ := hp.exists_seen hf hid
    obtain rfl := (hrule.2 v hv).2 hr
    rw [Expr.isPlain, Typing.tyOf_eq hv, Bool.not_eq_true'] at hplain
    rw [exprCode] at hl
    obtain ⟨m', hm'⟩ := turns_variable hp hf h hv hid hplain hl hm hspared hroom
    refine ⟨_, m', ?_, Ty.length_wordsAt hrv hplain _ _, hm'⟩
    rw [Expr.wordsIn, hv]
    rfl
  | @binary op lhs rhs ty loc hrule hlhs hrhs ihl ihr =>
    intro l m ws hl hm hspared hroom
    obtain ⟨hkind, hrl, hstring, -, hty⟩ := hrule
    rw [Expr.isPlain, Bool.and_eq_true, Bool.and_eq_true] at hplain
    obtain ⟨⟨hop, hpl⟩, hpr⟩ := hplain
    cases hsees with
    | binary _ hsl hsr =>
    have hrr : rhs.ty.isResolved = true := by rwa [Ty.isResolved, ← hkind]
    have hstring' : rhs.ty.isString = false := by rwa [Ty.isString, ← hkind]
    rw [exprCode] at hl
    obtain ⟨_, lop, hl', hlop, rfl⟩ := Code.Gives.append hl
    obtain ⟨la, lb, hla, hlb, rfl⟩ := hl'.append
    obtain ⟨us, m₁, hus, hlen, hm₁⟩ :=
      ihl hsl hpl hrl hla hm hspared (room_left (room_left hroom))
    obtain ⟨a, rfl⟩ := List.length_eq_one_iff.mp (hlen.trans (Ty.words_eq_one hrl hstring))
    have hroom₁ := (room_append hm₁ (room_left hroom)).2
    obtain ⟨vs, m₂, hvs, hlen', hm₂⟩ := ihr hsr hpr hrr hlb hm₁.carries (hspared.turns hm₁) hroom₁
    obtain ⟨b, rfl⟩ := List.length_eq_one_iff.mp (hlen'.trans (Ty.words_eq_one hrr hstring'))
    have happly : ∃ v, op.apply a b = some v := by
      cases op with
      | div => cases hop
      | _ => exact ⟨_, rfl⟩
    obtain ⟨v, hv⟩ := happly
    obtain ⟨m₃, hm₃⟩ := turns_applied hv hlop hm₁ hm₂ hroom
    refine ⟨[v], m₃, ?_, ?_, hm₃⟩
    · rw [Expr.wordsIn, hus, hvs]
      dsimp only
      rw [hv]
      rfl
    · rw [Expr.ty, hty]
      split
      · rfl
      · exact (Ty.words_eq_one hrl hstring).symm
  | _ => cases hplain

/-- The code of plain expressions leaves the words of their values, **those of the last on top**. -/
theorem turns_exprsCode {own : VarId → Prop} {signatures : List Typing.Signature} {es : List Expr} :
    ∀ {l : Listing} {m : Machine} {ws : List Int64}, (∀ e ∈ es, TypedIn p own signatures e) →
      (∀ e ∈ es, e.Everywhere (Expr.SeesRule p f)) → (∀ e ∈ es, e.isPlain p = true) →
      (∀ e ∈ es, e.ty.isResolved = true) → (exprsCode p es).Gives l → m.Carries s.top ws →
      Spared s m₀ m → ws.length + l.peak ≤ s.room →
      ∃ values m', es.mapM (Expr.wordsIn s.env p m₀) = some values ∧
        List.Forall₂ (fun e words => words.length = e.ty.words) es values ∧
        l.Turns s [] ws (values.flatten.reverse ++ ws) m m' := by
  induction es with
  | nil =>
    intro l m ws _ _ _ _ hl hm _ _
    rw [exprsCode] at hl
    rw [hl.nothing]
    exact ⟨[], m, rfl, .nil, .nil hm⟩
  | cons e es ih =>
    intro l m ws he hsees hplain hr hl hm hspared hroom
    obtain ⟨he, hes⟩ := List.forall_mem_cons.mp he
    obtain ⟨hsee, hsees⟩ := List.forall_mem_cons.mp hsees
    obtain ⟨hp₁, hplain⟩ := List.forall_mem_cons.mp hplain
    obtain ⟨hr₁, hr⟩ := List.forall_mem_cons.mp hr
    rw [exprsCode] at hl
    obtain ⟨a, b, ha, hb, rfl⟩ := hl.append
    obtain ⟨words, m₁, hwords, hlen, hm₁⟩ :=
      turns_exprCode hp hf h he hsee hp₁ hr₁ ha hm hspared (room_left hroom)
    obtain ⟨values, m₂, hvalues, hlens, hm₂⟩ :=
      ih hes hsees hplain hr hb hm₁.carries (hspared.turns hm₁) (room_append hm₁ hroom).2
    refine ⟨words :: values, m₂, ?_, .cons hlen hlens, ?_⟩
    · rw [List.mapM_cons, hwords, hvalues]
      rfl
    · rw [List.flatten_cons, List.reverse_append, List.append_assoc]
      exact hm₁.append hm₂

end Values

/-! ## Storing them -/

/-- The target is the variable, which is seen in the function and no array. -/
structure IsTarget (p : Program) (f : Function) (target : Expr) (id : VarId) : Prop where
  node : ∃ loc, target = .var id (Typing.tyOf p.vars id) loc
  seen : p.Sees f id
  noArray : (Typing.tyOf p.vars id).isArray = false

/-- In the bytes of the variable stands the value of these words. -/
def Kept (env : Environment) (p : Program) (m₀ m : Machine) (id : VarId) (words : List Int64) : Prop :=
  m.memory.bytesOf (p.blockOf env m₀ id) = (Typing.tyOf p.vars id).bytesOf words

section Stores

variable (hp : p.Typed) (hf : f ∈ p.funcs) (h : p.InPlace s.env f s.stack m₀)
include hp hf h

/-- **The words on top of the stack are stored in the target** and taken off. -/
theorem turns_storeCode {target : Expr} {id : VarId} (ht : IsTarget p f target id)
    {words : List Int64} (hwords : words.length = target.ty.words)
    (hl : (storeCode p target).Gives l) (hm : m.Carries s.top (words.reverse ++ ws))
    (hrbp : m.regs .rbp = m₀.regs .rbp) (hroom : (words.reverse ++ ws).length + l.peak ≤ s.room) :
    ∃ m', l.Turns s [p.blockOf s.env m₀ id] (words.reverse ++ ws) ws m m' ∧
      Kept s.env p m₀ m' id words := by
  obtain ⟨⟨loc, rfl⟩, hid, ha⟩ := ht
  obtain ⟨v, hv, hr, -⟩ := hp.exists_seen hf hid
  have happart := h.stack_apart hp hf hid
  unfold Kept
  rw [Typing.tyOf_eq hv] at *
  rw [Program.blockOf_eq hv] at *
  obtain ⟨_, lo, hl', hlo, rfl⟩ := Code.Gives.append hl
  obtain ⟨_, ls, hla, hls, rfl⟩ := hl'.append
  rw [exprCode] at hla
  obtain ⟨la, _, hla, hnothing, rfl⟩ := hla.append
  rw [hnothing.nothing, List.append_nil] at *
  rw [variableAddress_eq hv] at hla
  rw [List.append_assoc] at *
  obtain ⟨m₁, hm₁⟩ := turns_pushAddress
    [⟨m₀.locate s.env (variablePlace p v), v.ty.size.toNat⟩] hla hm (room_left hroom)
  rw [p.locate_variablePlace hrbp] at hm₁
  have hroom₁ := (room_append hm₁ hroom).2
  obtain ⟨m₂, hm₂, hbytes⟩ := turns_store hr ha hwords hls hlo hm₁.carries
    (le_of_add_le_left hroom₁) happart
  exact ⟨m₂, hm₁.append hm₂, hbytes⟩

/-- **The values on the stack are stored in their targets**, the last one first; what has been stored in
one target stays there while the others are stored. -/
theorem turns_storesCode {targets : List Expr} {ids : List VarId}
    (ht : List.Forall₂ (IsTarget p f) targets ids) :
    ∀ {values : List (List Int64)} {l : Listing} {m : Machine} {ws : List Int64}, ids.Nodup →
      List.Forall₂ (fun target words => words.length = target.ty.words) targets values →
      (storesCode p targets).Gives l → m.Carries s.top (values.flatten.reverse ++ ws) →
      m.regs .rbp = m₀.regs .rbp → (values.flatten.reverse ++ ws).length + l.peak ≤ s.room →
      ∃ m', l.Turns s (ids.map (p.blockOf s.env m₀)) (values.flatten.reverse ++ ws) ws m m' ∧
        List.Forall₂ (Kept s.env p m₀ m') ids values := by
  induction ht with
  | nil =>
    intro values l m ws _ hvalues hl hm _ _
    cases hvalues
    rw [storesCode] at hl
    rw [hl.nothing]
    exact ⟨m, .nil hm, .nil⟩
  | @cons target id targets ids htarget htargets ih =>
    intro values l m ws hnodup hvalues hl hm hrbp hroom
    cases hvalues with
    | @cons _ words _ values hwords hvalues =>
    obtain ⟨hnot, hnodup⟩ := List.nodup_cons.mp hnodup
    rw [List.flatten_cons, List.reverse_append, List.append_assoc] at *
    rw [storesCode] at hl
    obtain ⟨a, b, ha, hb, rfl⟩ := hl.append
    obtain ⟨m₁, hm₁, hkept⟩ := ih hnodup hvalues ha hm hrbp (room_left hroom)
    obtain ⟨m₂, hm₂, hlast⟩ := turns_storeCode hp hf h htarget hwords hb hm₁.carries
      (hm₁.rbp.trans hrbp) (room_append hm₁ hroom).2
    refine ⟨m₂, (hm₁.mono (List.subset_cons_self _ _)).append (hm₂.mono ?_), .cons hlast ?_⟩
    · exact List.cons_subset_cons _ (List.nil_subset _)
    · -- a target that has its value is another one than that which is stored now
      have hsame : ∀ id' ∈ ids, ∀ words', Kept s.env p m₀ m₁ id' words' → Kept s.env p m₀ m₂ id' words' := by
        intro id' hid' words' hk
        obtain ⟨target', -, htarget'⟩ := exists_of_forall₂ htargets.flip hid'
        have hne : id ≠ id' := fun heq => hnot (heq ▸ hid')
        obtain ⟨v', hv', -, -, hsize⟩ := hp.exists_seen hf htarget'.seen
        refine (hm₂.bytesOf_eq ?_ (h.stack_apart hp hf htarget'.seen) fun c hc => ?_).trans hk
        · rw [Program.blockOf_eq hv']
          unfold Word.greatest at hsize
          change v'.ty.size.toNat ≤ 2 ^ 64
          omega
        · cases List.mem_singleton.mp hc
          exact h.apart_of_ne hp hf htarget.seen htarget'.seen hne
      exact ((List.forall₂_and_left _ _).mpr ⟨fun _ hid' => hid', hkept⟩).imp
        fun id' words' hk => hsame id' hk.1 words' hk.2

end Stores

/-! ## Assignments -/

/-- The assignment has been made: each target has the bytes **of its own value**, all other variables
have theirs, the stack is as high as it was, and no byte is changed but those of the targets and of the
stack. -/
structure Assigned (env : Environment) (p : Program) (f : Function) (stack : Block)
    (ids : List VarId) (values : List (List Int64)) (m m' : Machine) : Prop where
  rsp : m'.regs .rsp = m.regs .rsp
  rbp : m'.regs .rbp = m.regs .rbp
  targets : List.Forall₂ (Kept env p m m') ids values
  others : ∀ id, p.Sees f id → id ∉ ids →
    m'.memory.bytesOf (p.blockOf env m id) = m.memory.bytesOf (p.blockOf env m id)
  outside : ∀ a, ¬stack.Covers a → (∀ id ∈ ids, ¬(p.blockOf env m id).Covers a) →
    m'.memory a = m.memory a

/-- Running the listing assigns the values of the right-hand sides, **as they were before**, to the
variables, from whatever machine has all in place. -/
def AssignsAtOnce (p : Program) (f : Function) (l : Listing) (ids : List VarId) (values : List Expr) :
    Prop :=
  ∀ (env : Environment) (m : Machine),
    p.InPlace env f (.below (m.regs .rsp) (8 * l.peak)) m →
    ∃ words m', values.mapM (Expr.wordsIn env p m) = some words ∧ l.Leads env m m' ∧
      Assigned env p f (.below (m.regs .rsp) (8 * l.peak)) ids words m m'

theorem lengths_of_fitting {targets values : List Expr} (h : List.Forall₂ Fitting targets values) :
    ∀ {words : List (List Int64)},
      List.Forall₂ (fun e ws => ws.length = e.ty.words) values words →
      List.Forall₂ (fun target ws => ws.length = target.ty.words) targets words := by
  induction h with
  | nil => exact fun | .nil => .nil
  | cons hfit _ ih => exact fun | .cons h hs => .cons (h.trans hfit.words.symm) (ih hs)

theorem IsTarget.of_typed {own : VarId → Prop} {signatures : List Typing.Signature}
    {target value : Expr} {id : VarId} (hfit : Fitting target value)
    (ht : TypedIn p own signatures target) (hsees : target.Everywhere (Expr.SeesRule p f))
    (hnode : ∃ ty loc, target = .var id ty loc) (ha : (Typing.tyOf p.vars id).isArray = false) :
    IsTarget p f target id := by
  obtain ⟨ty, loc, rfl⟩ := hnode
  have hr : ty.isResolved = true := Ty.isResolved_of_words_eq hfit.words hfit.resolved
  obtain ⟨⟨v, hv, -⟩, hty⟩ := ht.here
  refine ⟨⟨loc, ?_⟩, hsees.here, ha⟩
  rw [Typing.tyOf_eq hv, (hty v hv).2 hr]

/-- **All values are computed before any is stored**, so each target gets its own. -/
theorem assignsAtOnce_of_typed (hp : p.Typed) (hf : f ∈ p.funcs) {own : VarId → Prop}
    {signatures : List Typing.Signature} {targets values : List Expr} {ids : List VarId}
    (htargets : List.Forall₂ (IsTarget p f) targets ids) (hnodup : ids.Nodup)
    (hfits : List.Forall₂ Fitting targets values) (hv : ∀ e ∈ values, TypedIn p own signatures e)
    (hsees : ∀ e ∈ values, e.Everywhere (Expr.SeesRule p f))
    (hplain : ∀ e ∈ values, e.isPlain p = true)
    (hl : (exprsCode p values ++ storesCode p targets).Gives l) : AssignsAtOnce p f l ids values := by
  intro env m h
  have hfits' : 8 * l.peak < 2 ^ 64 := by
    cases htargets with
    | nil =>
      cases hfits
      obtain ⟨a, b, ha, hb, rfl⟩ := hl.append
      rw [exprsCode] at ha
      rw [storesCode] at hb
      rw [ha.nothing, hb.nothing]
      decide
    | cons htarget =>
      obtain ⟨v, hv, -, hsize, -⟩ := hp.exists_seen hf htarget.seen
      refine (h.stack_apart hp hf htarget.seen).bytes_lt ?_
      rw [Program.blockOf_eq hv]
      change 0 < v.ty.size.toNat
      omega
  obtain ⟨a, b, ha, hb, rfl⟩ := hl.append
  have hm : m.Carries (m.regs .rsp) [] := ⟨(Int64.sub_zero _).symm, trivial⟩
  have hroom : ([] : List Int64).length + (a ++ b).peak ≤ (a ++ b).peak := by
    rw [List.length_nil, Nat.zero_add]
  obtain ⟨words, m₁, hwords, hlens, hm₁⟩ :=
    turns_exprsCode (s := ⟨env, m.regs .rsp, (a ++ b).peak, hfits'⟩) hp hf h hv hsees hplain
      (fun e he => Fitting.resolved_of_mem hfits he) ha hm ⟨rfl, fun _ _ => rfl⟩ (room_left hroom)
  obtain ⟨m₂, hm₂, hkept⟩ := turns_storesCode hp hf h htargets hnodup
    (lengths_of_fitting hfits hlens) hb hm₁.carries hm₁.rbp (room_append hm₁ hroom).2
  have hall := (hm₁.mono (List.nil_subset _)).append hm₂
  refine ⟨words, m₂, hwords, hall.leads, ⟨?_, hall.rbp, hkept, fun id hid hnot => ?_,
    fun x hs hx => hall.outside x hs fun c hc => ?_⟩⟩
  · exact hall.carries.rsp.trans (Int64.sub_zero _)
  · obtain ⟨v, hv, -, -, hsize⟩ := hp.exists_seen hf hid
    refine hall.bytesOf_eq ?_ (h.stack_apart hp hf hid) fun c hc => ?_
    · rw [Program.blockOf_eq hv]
      unfold Word.greatest at hsize
      change v.ty.size.toNat ≤ 2 ^ 64
      omega
    · obtain ⟨id', hid', rfl⟩ := List.mem_map.mp hc
      obtain ⟨_, -, htarget⟩ := exists_of_forall₂ htargets.flip hid'
      exact h.apart_of_ne hp hf htarget.seen hid fun heq => hnot (heq ▸ hid')
  · obtain ⟨id, hid, rfl⟩ := List.mem_map.mp hc
    exact hx id hid

/-! ## Lines of a statement -/

section Lines

variable {P : Expr → Prop} {Q : Stmt → Prop} {exit : Label} {listing : Listing}

/-- Some lines of the listing are the code of the statement. -/
def HasLines (p : Program) (listing : Listing) (st : Stmt) : Prop :=
  ∃ exit base l, (stmtCode p exit base st).Gives l ∧ l <:+: listing

theorem stmtsCode_lines : ∀ {stmts : List Stmt} {base : Nat} {l : Listing},
    (stmtsCode p exit base stmts).Gives l → l <:+: listing →
      ∀ st ∈ stmts, ∃ base l', (stmtCode p exit base st).Gives l' ∧ l' <:+: listing
  | [], _, _, _, _, _, hst => absurd hst List.not_mem_nil
  | st :: stmts, base, l, hl, hin, st', hst' => by
    rw [stmtsCode] at hl
    obtain ⟨a, b, ha, hb, rfl⟩ := hl.append
    rcases List.mem_cons.mp hst' with rfl | hst'
    · exact ⟨base, a, ha, (List.prefix_append a b).isInfix.trans hin⟩
    · exact stmtsCode_lines hb ((List.suffix_append a b).isInfix.trans hin) st' hst'

/-- What is in a listing has **the lines of all its parts** there. -/
theorem hasLines_everywhere {st : Stmt} (h : st.Everywhere P Q) : ∀ {base : Nat} {l : Listing},
    (stmtCode p exit base st).Gives l → l <:+: listing →
      st.Everywhere P fun st => Q st ∧ HasLines p listing st := by
  induction h with
  | expr h he => exact fun hl hin => .expr ⟨h, _, _, _, hl, hin⟩ he
  | ret h he => exact fun hl hin => .ret ⟨h, _, _, _, hl, hin⟩ he
  | block h _ ih =>
    intro base l hl hin
    refine .block ⟨h, _, _, _, hl, hin⟩ fun st hst => ?_
    rw [stmtCode] at hl
    obtain ⟨_, _, hl', hin'⟩ := stmtsCode_lines hl hin st hst
    exact ih st hst hl' hin'
  | @branch init _ body _ h _ hc _ _ ihi ihb iho =>
    intro base l hl hin
    have hlines : HasLines p listing _ := ⟨_, _, _, hl, hin⟩
    obtain ⟨a, b, c, d, ha, hb, hcode, hd, rfl⟩ := branchCode_gives hl
    have hpart : ∀ x ∈ [a, b, c, [.instr (.jump (.endOf (base + init.labelCount + 1)))],
        [.label (.elseOf (base + init.labelCount + 1))], d,
        [.label (.endOf (base + init.labelCount + 1))]], x <:+: listing := fun x hx =>
      (List.infix_of_mem_flatten hx).trans (by simpa using hin)
    refine .branch ⟨h, hlines⟩ (ihi ha (hpart a (by simp))) hc (fun st hst => ?_)
      (iho hd (hpart d (by simp)))
    obtain ⟨_, _, hl', hin'⟩ := stmtsCode_lines hcode (hpart c (by simp)) st hst
    exact ihb st hst hl' hin'
  | @loop init _ _ body _ h _ hc _ _ ihi ihp ihb =>
    intro base l hl hin
    have hlines : HasLines p listing _ := ⟨_, _, _, hl, hin⟩
    obtain ⟨a, b, c, d, ha, hb, hcode, hd, rfl⟩ := loopCode_gives hl
    have hpart : ∀ x ∈ [a, [.label (.beginOf (base + init.labelCount + 1))], b, c, d,
        [.instr (.jump (.beginOf (base + init.labelCount + 1)))],
        [.label (.endOf (base + init.labelCount + 1))]], x <:+: listing := fun x hx =>
      (List.infix_of_mem_flatten hx).trans (by simpa using hin)
    refine .loop ⟨h, hlines⟩ (ihi ha (hpart a (by simp))) hc (ihp hd (hpart d (by simp)))
      fun st hst => ?_
    obtain ⟨_, _, hl', hin'⟩ := stmtsCode_lines hcode (hpart c (by simp)) st hst
    exact ihb st hst hl' hin'
  | assign h ht hv => exact fun hl hin => .assign ⟨h, _, _, _, hl, hin⟩ ht hv
  | print h ha => exact fun hl hin => .print ⟨h, _, _, _, hl, hin⟩ ha
  | empty h => exact fun hl hin => .empty ⟨h, _, _, _, hl, hin⟩

end Lines

end Lowering

open Lowering

/-- Of an assignment to distinct variables of the function whose values are plain expressions: the
listing has its lines, and its lines **assign at once**. -/
def Compilation.AssignsIn (c : Compilation) (f : Function) (listing : Listing) : Stmt → Prop
  | .assign targets values loc => ∀ ids : List VarId, targets.mapM Expr.variable? = some ids →
    ids.Nodup → (∀ id ∈ ids, (Typing.tyOf c.program.vars id).isArray = false) →
    (∀ e ∈ values, e.isPlain c.program = true) →
    HasLines c.program listing (.assign targets values loc) ∧
      ∀ exit base l, (stmtCode c.program exit base (.assign targets values loc)).Gives l →
        AssignsAtOnce c.program f l ids values
  | _ => True

/-- A byte, an `int` and two strings; each gets another one's value. -/
def textOfPermutation : String :=
  "package p var s = \"ab\"; var b int8; func main() \x7b i, t := 300, \"\"; b, s, i, t = i, t, 2*i-1, s \x7d"

namespace Permutation

/-- Places for the labels of that program. -/
def environment : Environment where
  kernelRcx := 0
  address
    | .string n => .ofNat (4096 + n)
    | .descriptor n => .ofNat (8192 + 32 * n)
    | .symbol (.member _ "s") => 12288
    | _ => 16384

/-- The machine between the two assignments, with 300 in the slot of `i` and the data as it was
loaded. -/
def machine : Machine where
  regs
    | .rbp => 1048576
    | .rsp => 1048544
    | _ => 0
  memory := ([(8192, 4096), (8200, 2), (8224, 4097), (12288, 4096), (12296, 2), (1048568, 300)] :
    List (Int64 × Int64)).foldl (fun memory entry => memory.setWord entry.1 entry.2) fun _ => 0
  flags := none
  written := []

/-- The descriptors of strings are in that machine, and no block of it overlaps another. -/
def isInPlace (p : Program) (f : Function) (l : Listing) : Bool :=
  (p.strings.zipIdx.all fun (text, string) =>
    machine.memory.word (environment.descriptor string).start == environment.address (.string string) &&
      machine.memory.word ((environment.descriptor string).start + 8) ==
        .ofNat (Lowering.utf8 text).length) &&
  decide ((Block.below (machine.regs .rsp) (8 * l.peak) :: p.blocks environment f machine).Pairwise
    fun b c => b.bytes ≤ Memory.gap b.start c.start ∧
      Memory.gap b.start c.start + c.bytes ≤ 2 ^ 64)

theorem inPlace_of_isInPlace {p : Program} {f : Function} {l : Listing}
    (h : isInPlace p f l = true) :
    p.InPlace environment f (.below (machine.regs .rsp) (8 * l.peak)) machine := by
  obtain ⟨hdescribed, hapart⟩ := Bool.and_eq_true_iff.mp h
  refine ⟨(of_decide_eq_true hapart).imp Block.apart_of_gap, fun string text htext => ?_⟩
  have hmem : (text, string) ∈ p.strings.zipIdx := List.mem_zipIdx_iff_getElem?.mpr htext
  obtain ⟨hstart, hlength⟩ := Bool.and_eq_true_iff.mp (List.all_eq_true.mp hdescribed _ hmem)
  exact ⟨beq_iff_eq.mp hstart, beq_iff_eq.mp hlength⟩

/-- The statement assigns to these variables the values of these words, and all that its code needs
is in place. -/
def permutes (p : Program) (f : Function) (ids : List VarId) (words : List (List Int64))
    (st : Stmt) : Bool :=
  match st, Lowering.stmtCode p .newline 0 st 0 with
  | .assign targets values _, .ok l => targets.mapM Expr.variable? == some ids &&
    ids.all (fun id => !(Typing.tyOf p.vars id).isArray) && values.all (Expr.isPlain p) &&
    values.mapM (Expr.wordsIn environment p machine) == some words && isInPlace p f l
  | _, _ => false

end Permutation

end StackCompiler

import StackCompiler.Proofs.Lowering.Computed
import StackCompiler.Proofs.Lowering.Parts
import StackCompiler.Proofs.Ty.Arrays
import StackCompiler.Proofs.Typing.Arrays

/-!
# Proofs/Lowering/Elements — the elements of an array variable

A chain of indices into an array variable moves on from the variable's address, with one step for each
position, by **the size of what the position is of**.  So its code leaves the address of the element in
row-major order; the element is inside the variable, and apart from all elements at other positions
(`locates_of_compile`).
-/

namespace StackCompiler

open Machine Lowering

/-! ## Parts of a block -/

/-- So many bytes, from so many bytes behind the start of the block. -/
def Block.part (b : Block) (offset size : Int) : Block :=
  ⟨b.start + .ofInt offset, size.toNat⟩

section Parts

variable {b : Block} {offset size offset' size' : Int}

theorem Block.gap_part (hb : b.bytes ≤ 2 ^ 63) (hlow : 0 ≤ offset) (hhigh : offset ≤ b.bytes) :
    Memory.gap b.start (b.part offset size).start = offset.toNat := by
  have hint : Int64.ofInt offset = .ofNat offset.toNat := by
    rw [← Int64.ofInt_eq_ofNat, Int.toNat_of_nonneg hlow]
  rw [Block.part, hint, Memory.gap_add (by rw [Memory.gap_self]; omega), Memory.gap_self, Nat.zero_add]

/-- A part that ends in the block **is in the block**. -/
theorem Block.covers_of_part (hb : b.bytes ≤ 2 ^ 63) (hlow : 0 ≤ offset) (hsize : 0 ≤ size)
    (hhigh : offset + size ≤ b.bytes) {a : Int64} (ha : (b.part offset size).Covers a) :
    b.Covers a := by
  have hvia := Memory.gap_via b.start (b.part offset size).start a
  rw [gap_part hb hlow (by omega)] at hvia
  change Memory.gap (b.part offset size).start a < size.toNat at ha
  unfold Covers
  omega

/-- Parts one behind the other **have no address in common**. -/
theorem Block.apart_of_parts (hb : b.bytes ≤ 2 ^ 63) (hlow : 0 ≤ offset) (hsize : 0 ≤ size)
    (hnext : offset + size ≤ offset') (hsize' : 0 ≤ size') (hhigh : offset' + size' ≤ b.bytes) :
    (b.part offset size).Apart (b.part offset' size') := by
  intro a ha ha'
  have hvia := Memory.gap_via b.start (b.part offset size).start a
  have hvia' := Memory.gap_via b.start (b.part offset' size').start a
  rw [gap_part hb hlow (by omega)] at hvia
  rw [gap_part hb (by omega) (by omega)] at hvia'
  change Memory.gap (b.part offset size).start a < size.toNat at ha
  change Memory.gap (b.part offset' size').start a < size'.toNat at ha'
  omega

end Parts

/-! ## Chains of indices -/

/-- The expression is the variable, indexed by these positions one after the other. -/
inductive Expr.Indexes (id : VarId) : Expr → List Expr → Prop
  | var {ty loc} : Indexes id (.var id ty loc) []
  | index {base position ty loc positions} : Indexes id base positions →
      Indexes id (.index base position ty loc) (positions ++ [position])

/-- The bytes of the element at those positions in an array variable. -/
def Program.elementOf (env : Environment) (p : Program) (m : Machine) (id : VarId) (element : Ty)
    (lens : List Int) (is : List Int64) : Block :=
  (p.blockOf env m id).part (element.rowMajor lens (is.map Int64.toInt)) element.size

/-- The word that is computed of the expression. -/
def Expr.word? (env : Environment) (p : Program) (m : Machine) (stack : Block) (e : Expr) :
    Option Int64 :=
  (e.computed env p m stack .value).bind oneWord

/-- The words of the positions are numbers below the lengths that they are for. -/
abbrev Positions (lens : List Int) (is : List Int64) : Prop :=
  Ty.Within lens (is.map Int64.toInt)

/-- The listing locates the elements of the variable.  Wherever the stack has room for it, and
whatever is on it, running through the listing puts on it **the address of the element** at the
positions that are computed there; elements are in the variable, and no two of them have a byte in
common. -/
structure Locates (p : Program) (l : Listing) (id : VarId) (element : Ty) (lens : List Int)
    (positions : List Expr) : Prop where
  leads : ∀ (s : Stage) (m : Machine) (ws is : List Int64), m.Carries s.top ws →
    ws.length + l.peak ≤ s.room → positions.mapM (Expr.word? s.env p m s.stack) = some is →
    ∃ m', l.Turns s [] ws ((p.elementOf s.env m id element lens is).start :: ws) m m'
  inside : ∀ (env : Environment) (m : Machine) (is : List Int64), Positions lens is →
    ∀ a, (p.elementOf env m id element lens is).Covers a → (p.blockOf env m id).Covers a
  apart : ∀ (env : Environment) (m : Machine) (is is' : List Int64), Positions lens is →
    Positions lens is' → is ≠ is' →
    (p.elementOf env m id element lens is).Apart (p.elementOf env m id element lens is')

section Chains

variable {p : Program} {id : VarId} {v : Variable} {element : Ty} {lens : List Int} {e : Expr}
  {positions : List Expr} {own : VarId → Prop} {signatures : List Typing.Signature}

/-- A list that is one longer than another one ends in something. -/
theorem exists_concat_of_length {α β : Type} {as : List α} {bs : List β} {b : β}
    (h : as.length = (bs ++ [b]).length) : ∃ as' a, as = as' ++ [a] ∧ as'.length = bs.length := by
  obtain rfl | ⟨as', a, rfl⟩ := List.eq_nil_or_concat' as
  · rw [List.length_append] at h
    cases h
  · rw [List.length_append, List.length_append] at h
    exact ⟨as', a, rfl, Nat.succ_inj.mp h⟩

/-- **Each index takes one dimension off the type.** -/
theorem Expr.Indexes.ty_eq (h : e.Indexes id positions) (hv : p.vars[id]? = some v)
    (harray : v.ty.isArray = true) (he : TypedIn p own signatures e)
    (hrule : e.Everywhere (Expr.ArrayRule p.vars)) :
    ∀ {element lens}, v.ty = Ty.arrays element lens → lens.length = positions.length →
      e.ty = element := by
  induction h with
  | var =>
    intro element lens hty hlen
    obtain rfl := List.length_eq_zero_iff.mp hlen
    refine Eq.trans (hrule.here v.ty ?_) hty
    rw [Typing.arrayAt?_of_eq_some hv, Option.filter_some_pos harray]
    exact Option.mem_some_self _
  | @index base position ty loc positions hbase ih =>
    intro element lens hty hlen
    cases he with
    | index hindex hb _ =>
    cases hrule with
    | index _ hrule _ =>
    obtain ⟨lens, len, rfl, hlen'⟩ := exists_concat_of_length hlen
    rw [Ty.arrays_concat] at hty
    have hbase := ih hb hrule hty hlen'
    have hty : ty = Typing.elementTy base.ty := hindex
    rw [hbase] at hty
    exact hty

/-- **The code of a chain's address moves on by each position**, in steps of the size of what the
position is of. -/
theorem Expr.Indexes.turns (h : e.Indexes id positions) (hv : p.vars[id]? = some v)
    (harray : v.ty.isArray = true) (he : TypedIn p own signatures e)
    (hrule : e.Everywhere (Expr.ArrayRule p.vars)) {s : Stage} {m : Machine} {ws : List Int64}
    (hm : m.Carries s.top ws) :
    ∀ {element lens is l}, v.ty = Ty.arrays element lens → lens.length = positions.length →
      positions.mapM (Expr.word? s.env p m s.stack) = some is → (exprCode p .address e).Gives l →
      ws.length + l.peak ≤ s.room →
      ∃ m', l.Turns s [] ws ((p.elementOf s.env m id element lens is).start :: ws) m m' := by
  induction h with
  | var =>
    intro element lens is l hty hlen his hl hroom
    cases his
    obtain rfl := List.length_eq_zero_iff.mp hlen
    rw [exprCode, variableAddress_eq hv] at hl
    obtain ⟨la, _, hla, hnothing, rfl⟩ := hl.append
    rw [hnothing.nothing, List.append_nil] at *
    obtain ⟨m', hm'⟩ := turns_pushAddress [] hla hm hroom
    have hstart : (p.elementOf s.env m id element [] []).start =
        m.locate s.env (variablePlace p v) := by
      rw [Program.elementOf, Program.blockOf_eq hv]
      exact Int64.add_zero _
    exact ⟨m', hstart ▸ hm'⟩
  | @index base position ty loc positions hbase ih =>
    intro element lens is l hty hlen his hl hroom
    cases he with
    | index hindex hb hp =>
    cases hrule with
    | index _ hrule _ =>
    obtain ⟨lens, len, rfl, hlen'⟩ := exists_concat_of_length hlen
    rw [Ty.arrays_concat] at hty
    have hbasety := hbase.ty_eq hv harray hb hrule hty hlen'
    have hty' : ty = element := by
      have : ty = Typing.elementTy base.ty := hindex
      rw [this, hbasety, Typing.elementTy]
    rw [List.mapM_append] at his
    obtain ⟨is, hbefore, h⟩ := Option.bind_eq_some_iff.mp his
    obtain ⟨js, hjs, h⟩ := Option.bind_eq_some_iff.mp h
    cases h
    rw [List.mapM_cons] at hjs
    obtain ⟨i, hi, h⟩ := Option.bind_eq_some_iff.mp hjs
    cases h
    obtain ⟨words, hwords, hone⟩ := Option.bind_eq_some_iff.mp hi
    cases oneWord_eq_some hone
    rw [exprCode, hbasety] at hl
    obtain ⟨_, _, hmoved, hnothing, rfl⟩ := Code.Gives.append hl
    rw [hnothing.nothing, List.append_nil] at hroom ⊢
    obtain ⟨_, ls, hl', hls, rfl⟩ := hmoved.append
    obtain ⟨lb, lp, hlb, hlp, rfl⟩ := hl'.append
    obtain ⟨m₁, hm₁⟩ := ih hb hrule hty hlen' hbefore hlb (room_left (room_left hroom))
    obtain ⟨m₂, hm₂⟩ := turns_computed hwords hlp hm₁.carries
      (Spared.turns ⟨rfl, fun _ _ => rfl⟩ hm₁) (room_append hm₁ (room_left hroom)).2
    have hboth := hm₁.append hm₂
    obtain ⟨m₃, hm₃⟩ := turns_step hls hboth.carries
      (le_of_add_le_left (room_append hboth hroom).2)
    have hall := hboth.append hm₃
    have hstart : (p.elementOf s.env m id element (lens ++ [len]) (is ++ [i])).start =
        (p.elementOf s.env m id (.array element len) lens is).start + i * .ofInt ty.size := by
      have hmap := forall₂_of_mapM (R := fun _ _ => True) hbefore fun _ _ _ _ _ => trivial
      have hlens : lens.length = (is.map Int64.toInt).length := by
        rw [List.length_map, hlen', hmap.length_eq]
      rw [Program.elementOf, Program.elementOf, List.map_append, List.map_singleton,
        Ty.rowMajor_concat hlens, hty']
      change _ + Int64.ofInt _ = _ + Int64.ofInt _ + _
      rw [Int64.ofInt_add, Int64.ofInt_mul, Int64.ofInt_toInt, Int64.add_assoc]
    exact ⟨m₃, hstart ▸ hall⟩

/-- In a typed program, the code of a chain with one position for each dimension **locates the
elements of its variable**. -/
theorem Expr.Indexes.locates (h : e.Indexes id positions) (hp : p.Typed) (hv : p.vars[id]? = some v)
    (hty : v.ty = Ty.arrays element lens) (hlen : lens.length = positions.length)
    (hne : positions ≠ []) (he : TypedIn p own signatures e)
    (hrule : e.Everywhere (Expr.ArrayRule p.vars)) {l : Listing} (hl : (exprCode p .address e).Gives l) :
    Locates p l id element lens positions := by
  have harray : v.ty.isArray = true := by
    cases lens with
    | nil => exact absurd (List.length_eq_zero_iff.mp hlen.symm) hne
    | cons => exact hty ▸ rfl
  have hproper := hp.proper id v hv
  have hbytes (env : Environment) (m : Machine) :
      ((p.blockOf env m id).bytes : Int) = (Ty.arrays element lens).size ∧
        (p.blockOf env m id).bytes ≤ 2 ^ 63 := by
    have hresolved : v.ty.isResolved = true := Ty.isResolved_iff.mpr fun heq => by
      rw [heq] at harray
      cases harray
    have hsize := Ty.size_bounds hproper hresolved
    unfold Word.greatest at hsize
    rw [Program.blockOf_eq hv, ← hty]
    dsimp only
    omega
  rw [hty] at hproper
  have hsize := Ty.size_nonneg hproper.of_arrays
  refine ⟨fun s m ws is hm hroom his => h.turns hv harray he hrule hm hty hlen his hl hroom,
    fun env m is his a ha => ?_, fun env m is is' his his' hdiffer => ?_⟩
  · obtain ⟨hwhole, hfits⟩ := hbytes env m
    obtain ⟨hlow, hhigh⟩ := Ty.rowMajor_bounds hproper his
    exact Block.covers_of_part hfits hlow hsize (hwhole ▸ hhigh) ha
  · obtain ⟨hwhole, hfits⟩ := hbytes env m
    obtain ⟨hlow, hhigh⟩ := Ty.rowMajor_bounds hproper his
    obtain ⟨hlow', hhigh'⟩ := Ty.rowMajor_bounds hproper his'
    have hmaps : is.map Int64.toInt ≠ is'.map Int64.toInt := fun heq =>
      hdiffer (List.map_injective_iff.mpr (fun _ _ => Int64.toInt_inj.mp) heq)
    rcases Ty.rowMajor_apart hproper his his' hmaps with hfirst | hfirst
    · exact Block.apart_of_parts hfits hlow hsize hfirst hsize (hwhole ▸ hhigh')
    · exact (Block.apart_of_parts hfits hlow' hsize hfirst hsize (hwhole ▸ hhigh)).symm

end Chains

/-! ## In a compiled program -/

/-- Of a chain of indices into an array variable, with a position for each of so many dimensions: its
address has lines in the listing, and its lines **locate the elements** of the variable. -/
def Compilation.LocatesElements (c : Compilation) (listing : Listing) (e : Expr) : Prop :=
  ∀ (id : VarId) (v : Variable) (element : Ty) (lens : List Int) (positions : List Expr),
    e.Indexes id positions → c.program.vars[id]? = some v → v.ty = Ty.arrays element lens →
    lens.length = positions.length → positions ≠ [] →
    (∃ l, (exprCode c.program .address e).Gives l ∧ l <:+: listing) ∧
      ∀ l, (exprCode c.program .address e).Gives l → Locates c.program l id element lens positions

/-- A string is stored in a grid of strings; the one position is a local, the other one an element that
takes a byte. -/
def textOfGrid : String :=
  "package p var g [2][3]string; func main() \x7b var k [2]int8; i := 1; g[i][k[i]] = \"x\" \x7d"

namespace Grid

def environment : Environment where
  kernelRcx := 0
  address
    | .string n => .ofNat (4096 + n)
    | .descriptor n => .ofNat (8192 + 32 * n)
    | _ => 16384

/-- The machine before the assignment, with 1 in the slot of `i` and 2 in the last byte of `k`. -/
def machine : Machine where
  regs
    | .rbp => 1048576
    | .rsp => 1048544
    | _ => 0
  memory := Memory.store (Memory.setWord (fun _ => 0) 1048568 1) 1048567 [2]
  flags := none
  written := []

/-- A stack of eight words below the frame. -/
def stage : Stage :=
  ⟨environment, 1048544, 8, by decide⟩

/-- The target is the element of a grid of strings at the positions 1 and 2. -/
def isTarget (p : Program) : Expr → Bool
  | .index (.index (.var id ty loc) i ty' loc') j ty'' loc'' =>
    p.vars[id]?.any (fun v => v.ty == Ty.arrays .string [2, 3] &&
      machine.locate environment (variablePlace p v) == 16384) &&
    [i, j].mapM (Expr.word? environment p machine stage.stack) == some [1, 2] &&
    (exprCode p .address (.index (.index (.var id ty loc) i ty' loc') j ty'' loc'') 0).toOption.any
      fun l => l.peak ≤ stage.room
  | _ => false

/-- The statement assigns to such a target. -/
def assignsTarget (p : Program) : Stmt → Bool
  | .assign [target] _ _ => isTarget p target
  | _ => false

end Grid

end StackCompiler

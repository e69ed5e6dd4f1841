import StackCompiler.Proofs.Lowering.Assignments

/-!
# Proofs/Lowering/Computed — expressions without calls

What an expression that calls nothing computes is told **from the machine as it was before**: its code
reads memory, and writes none but that of the stack (`Expr.computed`).  No types are asked for here; where
code would take a word that is not there, or read what it has written itself, nothing is computed.
-/

namespace StackCompiler

open Machine Lowering

/-! ## Loads -/

namespace Block

/-- The one block starts behind the other and ends before it comes round. -/
def Misses (b c : Block) : Prop :=
  b.bytes ≤ Memory.gap b.start c.start ∧ Memory.gap b.start c.start + c.bytes ≤ 2 ^ 64

instance (b c : Block) : Decidable (b.Misses c) :=
  inferInstanceAs (Decidable (_ ∧ _))

end Block

/-- The type that a value is loaded as: **a word**, where there is no type. -/
def Ty.loaded : Ty → Ty
  | .unknown => .int
  | ty => ty

section Loaded

variable {ty : Ty}

theorem Ty.isResolved_loaded (ty : Ty) : ty.loaded.isResolved = true := by
  cases ty <;> rfl

theorem Ty.isArray_loaded (ty : Ty) : ty.loaded.isArray = ty.isArray := by
  cases ty <;> rfl

theorem Ty.wordsAt_loaded (m : Memory) (a : Int64) (ty : Ty) : ty.loaded.wordsAt m a = ty.wordsAt m a := by
  cases ty <;> rfl

theorem Lowering.load_loaded (ty : Ty) : load ty.loaded = load ty := by
  cases ty <;> rfl

end Loaded

/-- The words that are loaded from an address, of an array **the address**; what stands on the stack is
not loaded. -/
def Ty.fetched (stack : Block) (m : Memory) (a : Int64) (ty : Ty) : Option (List Int64) :=
  if ty.isArray then some [a]
  else if stack.Misses ⟨a, ty.loaded.size.toNat⟩ then some (ty.wordsAt m a)
  else none

/-- What is wanted of the value at an address. -/
def Lowering.Wanted.found (stack : Block) (m : Memory) (ty : Ty) (a : Int64) : Wanted → Option (List Int64)
  | .value => ty.fetched stack m a
  | .address => some [a]

/-! ## What is computed -/

/-- The one word of those, if they are one. -/
def oneWord : List Int64 → Option Int64
  | [a] => some a
  | _ => none

/-- The words of what is wanted of the expression, as memory stands in a machine.  There are none of a
call, of a division that traps, and where the stack would be read. -/
def Expr.computed (env : Environment) (p : Program) (m : Machine) (stack : Block) :
    Expr → Wanted → Option (List Int64)
  | .num value _ _, .value => some [value]
  | .str string ty _, wanted =>
    if string < p.strings.length then
      wanted.found stack m.memory ty (env.address (.descriptor string))
    else none
  | .var id ty _, wanted =>
    p.vars[id]?.bind fun v => wanted.found stack m.memory ty (m.locate env (variablePlace p v))
  | .addr operand _ _, .value => operand.computed env p m stack .address
  | .deref operand ty _, wanted => do
    let a ← oneWord (← operand.computed env p m stack .value)
    wanted.found stack m.memory ty a
  | .binary op lhs rhs _ _, .value => do
    let a ← oneWord (← lhs.computed env p m stack .value)
    let b ← oneWord (← rhs.computed env p m stack .value)
    (op.apply a b).map ([·])
  | .index base position ty _, wanted =>
    let start := match base.ty with
      | .array _ _ => base.computed env p m stack .address
      | .string => do
        let a ← oneWord (← base.computed env p m stack .address)
        Ty.int.fetched stack m.memory a
      | _ => base.computed env p m stack .value
    do
      let a ← oneWord (← start)
      let i ← oneWord (← position.computed env p m stack .value)
      wanted.found stack m.memory ty (a + i * .ofInt ty.size)
  | _, _ => none

/-- The address that the elements of a base start from: of a string it is **read from its descriptor**. -/
def Expr.computedStart (env : Environment) (p : Program) (m : Machine) (stack : Block) (base : Expr) :
    Option (List Int64) :=
  match base.ty with
  | .array _ _ => base.computed env p m stack .address
  | .string => do
    let a ← oneWord (← base.computed env p m stack .address)
    Ty.int.fetched stack m.memory a
  | _ => base.computed env p m stack .value

theorem Expr.computed_index (env : Environment) (p : Program) (m : Machine) (stack : Block)
    (base position : Expr) (ty : Ty) (loc : Nat) (wanted : Wanted) :
    (index base position ty loc).computed env p m stack wanted = (do
      let a ← oneWord (← base.computedStart env p m stack)
      let i ← oneWord (← position.computed env p m stack .value)
      wanted.found stack m.memory ty (a + i * .ofInt ty.size)) := by
  rw [Expr.computed]
  rfl

theorem oneWord_eq_some {words : List Int64} {a : Int64} (h : oneWord words = some a) : words = [a] := by
  unfold oneWord at h
  split at h
  · cases h; rfl
  · cases h

namespace Lowering

variable {s : Stage} {p : Program} {m₀ m : Machine} {l : Listing} {ws words : List Int64} {a i : Int64}

/-! ## Its code -/

/-- What is wanted of the value at an address comes **in the address's place**. -/
theorem turns_found {ty : Ty} {wanted : Wanted} (h : wanted.found s.stack m₀.memory ty a = some words)
    (hl : (fromAddress ty wanted).Gives l) (hm : m.Carries s.top (a :: ws)) (hspared : Spared s m₀ m)
    (hroom : (a :: ws).length + l.peak ≤ s.room) :
    ∃ m', l.Turns s [] (a :: ws) (words.reverse ++ ws) m m' := by
  have hnothing (hl : Code.nothing.Gives l) (h : some [a] = some words) :
      ∃ m', l.Turns s [] (a :: ws) (words.reverse ++ ws) m m' := by
    cases h
    rw [hl.nothing]
    exact ⟨m, .nil hm⟩
  cases wanted with
  | address => exact hnothing hl h
  | value =>
    change ty.fetched s.stack m₀.memory a = some words at h
    unfold Ty.fetched at h
    split at h
    · next harray =>
      cases ty with
      | array => exact hnothing hl h
      | _ => exact absurd (show false = true from harray) Bool.false_ne_true
    · next harray =>
      split at h
      · next hmisses =>
        cases h
        have hapart : s.stack.Apart ⟨a, ty.loaded.size.toNat⟩ := Block.apart_of_gap hmisses
        have harray : ty.loaded.isArray = false := by rw [ty.isArray_loaded]; simpa using harray
        have hsame := Ty.wordsAt_congr ty.isResolved_loaded harray fun x hx =>
          hspared.memory x fun hs => hapart x hs hx
        rw [Ty.wordsAt_loaded, Ty.wordsAt_loaded] at hsame
        rw [fromAddress, ← load_loaded] at hl
        obtain ⟨m', hm'⟩ := turns_load [] ty.isResolved_loaded harray hl hm hroom hapart
        rw [Ty.wordsAt_loaded, hsame] at hm'
        exact ⟨m', hm'⟩
      · cases h

/-- **The address moves on by so many elements.** -/
theorem turns_step {element : Ty} (hl : (step element).Gives l) (hm : m.Carries s.top (i :: a :: ws))
    (hroom : (i :: a :: ws).length ≤ s.room) :
    ∃ m', l.Turns s [] (i :: a :: ws) ((a + i * .ofInt element.size) :: ws) m m' := by
  rw [List.length_cons, List.length_cons] at hroom
  have hrdi : Reg.rdi ≠ .rsp ∧ Reg.rdi ≠ .rbp := by decide
  have hrax : Reg.rax ≠ .rsp ∧ Reg.rax ≠ .rbp := by decide
  obtain ⟨m₁, hposition, hi, -, -⟩ := turns_pop [] hrdi hm
  -- elements of one byte are not scaled
  have hscale : ∃ m₂, (Listing.ofInstrs (if element.size = 1 then [] else [.scale .rdi element.size])).Turns
      s [] (a :: ws) (a :: ws) m₁ m₂ ∧ m₂.regs .rdi = i * .ofInt element.size := by
    split
    · next hone =>
      refine ⟨m₁, .nil hposition.carries, ?_⟩
      rw [hi, hone]
      exact (Int64.mul_one i).symm
    · refine ⟨(m₁.put .rdi (m₁.regs .rdi * .ofInt element.size)).flagged none,
        turns_of_sameStack [] rfl ((SameStack.put hrdi m₁ _).trans (.flagged _ none)) rfl
          hposition.carries, ?_⟩
      rw [regs_flagged, regs_put_self, hi]
  obtain ⟨m₂, hscaled, hoffset⟩ := hscale
  obtain ⟨m₃, hbase, ha, -, hregs⟩ := turns_pop [] hrax hscaled.carries
  have hsum : execAll s.env [.add .rax .rdi] m₃ = some ((m₃.put .rax (m₃.regs .rax + m₃.regs .rdi)).flagged
      (some (.ofAdd (m₃.regs .rax) (m₃.regs .rdi)))) := rfl
  have hadd := turns_of_sameStack [] hsum ((SameStack.put hrax m₃ _).trans (.flagged _ _)) rfl
    hbase.carries
  have hpush := turns_pushWord (s := s) [] (exec_push_rax (v := a + i * .ofInt element.size) (by
    rw [regs_flagged, regs_put_self, ha, hregs .rdi (by decide) (by decide), hoffset])) rfl
    hadd.carries (by omega)
  have hlines : l = Listing.ofInstrs [.pop .rdi] ++
      Listing.ofInstrs (if element.size = 1 then [] else [.scale .rdi element.size]) ++
      Listing.ofInstrs [.pop .rax] ++ Listing.ofInstrs [.add .rax .rdi] ++
      Listing.ofInstrs [.push .rax] := by
    rw [hl.ofInstrs]
    simp [Listing.ofInstrs]
  exact ⟨_, hlines ▸ (((hposition.append hscaled).append hbase).append hadd).append hpush⟩

/-- What is wanted of the value at an address comes behind the code **that finds the address**. -/
theorem turns_append_found {ty : Ty} {wanted : Wanted} {la lb : Listing} {m₁ : Machine}
    (h : wanted.found s.stack m₀.memory ty a = some words) (hb : (fromAddress ty wanted).Gives lb)
    (ha : la.Turns s [] ws (a :: ws) m m₁) (hspared : Spared s m₀ m)
    (hroom : ws.length + (la ++ lb).peak ≤ s.room) :
    ∃ m', (la ++ lb).Turns s [] ws (words.reverse ++ ws) m m' := by
  obtain ⟨m₂, hm₂⟩ := turns_found h hb ha.carries (hspared.turns ha) (room_append ha hroom).2
  exact ⟨m₂, ha.append hm₂⟩

/-- The code of a base leaves **the address that its elements start from**. -/
theorem turns_baseCode {base : Expr} (ih : ∀ {wanted : Wanted} {l : Listing} {words : List Int64},
      base.computed s.env p m₀ s.stack wanted = some words → (exprCode p wanted base).Gives l →
        ws.length + l.peak ≤ s.room → ∃ m', l.Turns s [] ws (words.reverse ++ ws) m m')
    (h : base.computedStart s.env p m₀ s.stack = some [a]) (hl : (baseCode p base).Gives l)
    (hspared : Spared s m₀ m) (hroom : ws.length + l.peak ≤ s.room) :
    ∃ m', l.Turns s [] ws (a :: ws) m m' := by
  unfold Expr.computedStart at h
  unfold baseCode at hl
  cases hbase : base.ty with
  | array =>
    rw [hbase] at h hl
    exact ih h hl hroom
  | string =>
    rw [hbase] at h hl
    obtain ⟨la, lb, ha, hb, rfl⟩ := Code.Gives.append hl
    obtain ⟨us, hus, h⟩ := Option.bind_eq_some_iff.mp h
    obtain ⟨a', hone, h⟩ := Option.bind_eq_some_iff.mp h
    cases oneWord_eq_some hone
    obtain ⟨m₁, hm₁⟩ := ih hus ha (room_left hroom)
    have hword : Wanted.value.found s.stack m₀.memory .int a' = some [a] := h
    exact turns_append_found hword hb hm₁ hspared hroom
  | _ =>
    rw [hbase] at h hl
    exact ih h hl hroom

/-- **The code leaves what is computed**, and no memory but that of the stack is changed. -/
theorem turns_computed {e : Expr} : ∀ {wanted : Wanted} {l : Listing} {m : Machine}
    {ws words : List Int64}, e.computed s.env p m₀ s.stack wanted = some words →
      (exprCode p wanted e).Gives l → m.Carries s.top ws → Spared s m₀ m →
      ws.length + l.peak ≤ s.room → ∃ m', l.Turns s [] ws (words.reverse ++ ws) m m' := by
  induction e with
  | num value ty loc =>
    intro wanted l m ws words h hl hm _ hroom
    cases wanted with
    | address => cases h
    | value =>
      cases h
      exact turns_pushed [] rfl rfl hl hm hroom
  | str string ty loc =>
    intro wanted l m ws words h hl hm hspared hroom
    rw [exprCode] at hl
    obtain ⟨a, b, ha, hb, rfl⟩ := hl.append
    rw [Expr.computed] at h
    split at h
    · next hlt =>
      rw [descriptorAddress, if_pos hlt] at ha
      obtain ⟨m₁, hm₁⟩ := turns_pushAddress [] ha hm (room_left hroom)
      exact turns_append_found h hb hm₁ hspared hroom
    · cases h
  | var id ty loc =>
    intro wanted l m ws words h hl hm hspared hroom
    rw [exprCode] at hl
    obtain ⟨a, b, ha, hb, rfl⟩ := hl.append
    obtain ⟨v, hv, h⟩ := Option.bind_eq_some_iff.mp h
    rw [variableAddress_eq hv] at ha
    obtain ⟨m₁, hm₁⟩ := turns_pushAddress [] ha hm (room_left hroom)
    rw [p.locate_variablePlace hspared.rbp] at hm₁
    exact turns_append_found h hb hm₁ hspared hroom
  | addr operand ty loc ih =>
    intro wanted l m ws words h hl hm hspared hroom
    cases wanted with
    | address => cases h
    | value => exact ih h hl hm hspared hroom
  | deref operand ty loc ih =>
    intro wanted l m ws words h hl hm hspared hroom
    rw [exprCode] at hl
    obtain ⟨la, lb, ha, hb, rfl⟩ := hl.append
    obtain ⟨us, hus, h⟩ := Option.bind_eq_some_iff.mp h
    obtain ⟨a, hone, h⟩ := Option.bind_eq_some_iff.mp h
    cases oneWord_eq_some hone
    obtain ⟨m₁, hm₁⟩ := ih hus ha hm hspared (room_left hroom)
    exact turns_append_found h hb hm₁ hspared hroom
  | binary op lhs rhs ty loc ihl ihr =>
    intro wanted l m ws words h hl hm hspared hroom
    cases wanted with
    | address => cases h
    | value =>
      obtain ⟨us, hus, h⟩ := Option.bind_eq_some_iff.mp h
      obtain ⟨a, hone, h⟩ := Option.bind_eq_some_iff.mp h
      obtain ⟨vs, hvs, h⟩ := Option.bind_eq_some_iff.mp h
      obtain ⟨b, hone', h⟩ := Option.bind_eq_some_iff.mp h
      obtain ⟨v, hv, rfl⟩ := Option.map_eq_some_iff.mp h
      cases oneWord_eq_some hone
      cases oneWord_eq_some hone'
      rw [exprCode] at hl
      obtain ⟨_, lop, hl', hlop, rfl⟩ := Code.Gives.append hl
      obtain ⟨la, lb, hla, hlb, rfl⟩ := hl'.append
      obtain ⟨m₁, hm₁⟩ := ihl hus hla hm hspared (room_left (room_left hroom))
      have hroom₁ := (room_append hm₁ (room_left hroom)).2
      obtain ⟨m₂, hm₂⟩ := ihr hvs hlb hm₁.carries (hspared.turns hm₁) hroom₁
      exact turns_applied hv hlop hm₁ hm₂ hroom
  | index base position ty loc ihb ihp =>
    intro wanted l m ws words h hl hm hspared hroom
    rw [Expr.computed_index] at h
    obtain ⟨us, hus, h⟩ := Option.bind_eq_some_iff.mp h
    obtain ⟨a, hone, h⟩ := Option.bind_eq_some_iff.mp h
    obtain ⟨vs, hvs, h⟩ := Option.bind_eq_some_iff.mp h
    obtain ⟨i, hone', h⟩ := Option.bind_eq_some_iff.mp h
    cases oneWord_eq_some hone
    cases oneWord_eq_some hone'
    rw [exprCode_index] at hl
    obtain ⟨_, lw, hl', hlw, rfl⟩ := Code.Gives.append hl
    obtain ⟨_, ls, hl'', hls, rfl⟩ := hl'.append
    obtain ⟨lb, lp, hlb, hlp, rfl⟩ := hl''.append
    obtain ⟨m₁, hm₁⟩ := turns_baseCode (fun h hl => ihb h hl hm hspared) hus hlb hspared
      (room_left (room_left (room_left hroom)))
    have hroom₂ := (room_append hm₁ (room_left (room_left hroom))).2
    obtain ⟨m₂, hm₂⟩ := ihp hvs hlp hm₁.carries (hspared.turns hm₁) hroom₂
    have hboth := hm₁.append hm₂
    have hroom₃ := (room_append hboth (room_left hroom)).2
    obtain ⟨m₃, hm₃⟩ := turns_step hls hboth.carries (le_of_add_le_left hroom₃)
    exact turns_append_found h hlw (hboth.append hm₃) hspared hroom
  | call name args ty loc ih =>
    intro wanted l m ws words h hl hm hspared hroom
    cases wanted <;> cases h

end Lowering

end StackCompiler

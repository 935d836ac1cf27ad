import BlockGraph.Graph.Operation
import BlockGraph.Graph.Terminator
import BlockGraph.Proofs.Runs

namespace BlockGraph

variable {α β ε : Type}

/-- `read` and `rewrite` go through the same places of an `α`, in the same order. -/
structure Covers (read : α → List Register) (SameShape : α → α → Prop)
    (rewrite : {m : Type → Type} → [Monad m] → (Register → m Register) → α → m α) : Prop where
  rewrite_map (x : α) (f : Register → Register) :
    SameShape x (Id.run (rewrite (fun r => pure (f r)) x)) ∧
      read (Id.run (rewrite (fun r => pure (f r)) x)) = (read x).map f
  rewrite_run (x : α) : ∃ refill : List Register → α,
    (∀ rs, rs.length = (read x).length → SameShape x (refill rs) ∧ read (refill rs) = rs) ∧
    ∀ {m : Type → Type} [Monad m] [LawfulMonad m] (f : Register → m Register),
      rewrite f x = refill <$> (read x).mapM f
  eq_of_read {x y : α} (h : SameShape x y) (hread : read y = read x) : y = x

namespace Covers

variable {read : α → List Register} {SameShape : α → α → Prop}
  {rewrite : {m : Type → Type} → [Monad m] → (Register → m Register) → α → m α}

theorem of_refill (refill : α → List Register → α)
    (hrefill : ∀ x rs, rs.length = (read x).length →
      SameShape x (refill x rs) ∧ read (refill x rs) = rs)
    (hrun : ∀ x {m : Type → Type} [Monad m] [LawfulMonad m] (f : Register → m Register),
      rewrite f x = refill x <$> (read x).mapM f)
    (heq : ∀ {x y}, SameShape x y → read y = read x → y = x) :
    Covers read SameShape rewrite := by
  refine ⟨?_, fun x => ⟨refill x, hrefill x, hrun x⟩, heq⟩
  intro x f
  have hmap : Id.run (rewrite (fun r => pure (f r)) x) = refill x ((read x).map f) := by
    rw [hrun x]
    simp
  rw [hmap]
  exact hrefill x _ (List.length_map f)

section

variable (hc : Covers read SameShape rewrite) {f : Register → Except ε Register} {x y : α}

include hc

theorem of_rewrite_eq_ok (h : rewrite f x = .ok y) :
    SameShape x y ∧ List.Forall₂ (fun r r' => f r = .ok r') (read x) (read y) := by
  obtain ⟨refill, hrefill, hrun⟩ := hc.rewrite_run x
  simp only [hrun, map_eq_pure_bind, bind_eq_ok, pure_eq_ok] at h
  obtain ⟨rs, hrs, rfl⟩ := h
  have hcalls := mapM_eq_ok.1 hrs
  obtain ⟨hshape, hread⟩ := hrefill rs hcalls.length_eq.symm
  exact ⟨hshape, hread.symm ▸ hcalls⟩

theorem rewrite_eq_ok {g : Register → Register} (h : ∀ r ∈ read x, f r = .ok (g r)) :
    rewrite f x = .ok (Id.run (rewrite (fun r => pure (g r)) x)) := by
  obtain ⟨refill, -, hrun⟩ := hc.rewrite_run x
  rw [hrun, hrun, mapM_eq_ok_map h, List.mapM_pure]
  rfl

end

end Covers

theorem mapM_bind_congr {m : Type → Type} [Monad m] [LawfulMonad m] {f : Register → m Register}
    {l : List Register} {g h : List Register → m β}
    (hgh : ∀ rs, rs.length = l.length → g rs = h rs) : l.mapM f >>= g = l.mapM f >>= h := by
  induction l generalizing g h with
  | nil => simpa using hgh [] rfl
  | cons r l ih =>
    simp only [List.mapM_cons, bind_assoc, pure_bind]
    congr 1
    funext r'
    apply ih
    intro rs hrs
    apply hgh
    simp [hrs]

namespace Operation

inductive SameShape : Operation → Operation → Prop
  | literal (v : Literal) : SameShape (.literal v) (.literal v)
  | blockRef (b : BlockId) : SameShape (.blockRef b) (.blockRef b)
  | copy (r r' : Register) : SameShape (.copy r) (.copy r')
  | unary (op : UnaryOp) (r r' : Register) : SameShape (.unary op r) (.unary op r')
  | compare (op : CompareOp) (a b a' b' : Register) :
      SameShape (.compare op a b) (.compare op a' b')
  | numeric (op : NumericOp) (a b a' b' : Register) :
      SameShape (.numeric op a b) (.numeric op a' b')
  | shift (op : ShiftOp) (a b a' b' : Register) : SameShape (.shift op a b) (.shift op a' b')
  | concat (a b a' b' : Register) : SameShape (.concat a b) (.concat a' b')
  | identity (a b a' b' : Register) : SameShape (.identity a b) (.identity a' b')
  | getIndex (a i a' i' : Register) : SameShape (.getIndex a i) (.getIndex a' i')
  | setIndex (a i v a' i' v' : Register) : SameShape (.setIndex a i v) (.setIndex a' i' v')
  | getField (n : Nat) (o o' : Register) : SameShape (.getField o n) (.getField o' n)
  | setField (n : Nat) (o v o' v' : Register) : SameShape (.setField o n v) (.setField o' n v')
  | cast (op : CastOp) (r r' : Register) : SameShape (.cast op r) (.cast op r')
  | new (l : LayoutId) : SameShape (.new l) (.new l)
  | newArray (n n' : Register) : SameShape (.newArray n) (.newArray n')
  | native (name : String) {args args' : List Register} (h : args'.length = args.length) :
      SameShape (.native name args) (.native name args')

def withOperands : Operation → List Register → Operation
  | .copy _, [r] => .copy r
  | .unary op _, [r] => .unary op r
  | .compare op _ _, [a, b] => .compare op a b
  | .numeric op _ _, [a, b] => .numeric op a b
  | .shift op _ _, [a, b] => .shift op a b
  | .concat _ _, [a, b] => .concat a b
  | .identity _ _, [a, b] => .identity a b
  | .getIndex _ _, [a, i] => .getIndex a i
  | .setIndex _ _ _, [a, i, v] => .setIndex a i v
  | .getField _ n, [o] => .getField o n
  | .setField _ n _, [o, v] => .setField o n v
  | .cast op _, [r] => .cast op r
  | .newArray _, [n] => .newArray n
  | .native name _, args => .native name args
  | op, _ => op

theorem withOperands_spec (op : Operation) (rs : List Register)
    (h : rs.length = op.operands.length) :
    op.SameShape (op.withOperands rs) ∧ (op.withOperands rs).operands = rs := by
  -- The forms go by the number of their operands.
  cases op with
  | literal | blockRef | new =>
    obtain rfl := List.length_eq_zero_iff.1 h
    exact ⟨by constructor, rfl⟩
  | copy | unary | cast | newArray | getField =>
    obtain ⟨a, rfl⟩ := List.length_eq_one_iff.1 h
    exact ⟨by constructor, rfl⟩
  | compare | numeric | shift | concat | identity | getIndex | setField =>
    obtain ⟨a, b, rfl⟩ := List.length_eq_two.1 h
    exact ⟨by constructor, rfl⟩
  | setIndex =>
    obtain ⟨a, b, c, rfl⟩ := List.length_eq_three.1 h
    exact ⟨by constructor, rfl⟩
  | native name args => exact ⟨.native name h, rfl⟩

theorem mapM_eq_withOperands {m : Type → Type} [Monad m] [LawfulMonad m] (op : Operation)
    (f : Register → m Register) : op.mapM f = op.withOperands <$> op.operands.mapM f := by
  cases op with
  | native name args =>
    have hrefill : (native name args).withOperands = native name := rfl
    simp [mapM, operands, hrefill]
  | _ => simp [mapM, operands, withOperands]

theorem SameShape.eq_of_operands {op op' : Operation} (h : op.SameShape op')
    (hops : op'.operands = op.operands) : op' = op := by
  cases h <;> simp_all [operands]

theorem covers : Covers operands SameShape mapM :=
  .of_refill withOperands withOperands_spec (fun op => op.mapM_eq_withOperands)
    SameShape.eq_of_operands

end Operation

namespace Edge

def SameShape (e e' : Edge) : Prop := e'.arguments.length = e.arguments.length

def withRegisters (e : Edge) : List Register → Edge
  | target :: arguments => ⟨target, arguments⟩
  | [] => e

theorem withRegisters_spec (e : Edge) (rs : List Register) (h : rs.length = e.registers.length) :
    e.SameShape (e.withRegisters rs) ∧ (e.withRegisters rs).registers = rs := by
  obtain ⟨target, arguments, rfl⟩ := List.exists_cons_of_length_eq_add_one h
  exact ⟨Nat.succ.inj h, rfl⟩

theorem mapM_eq_withRegisters {m : Type → Type} [Monad m] [LawfulMonad m] (e : Edge)
    (f : Register → m Register) : e.mapM f = e.withRegisters <$> e.registers.mapM f := by
  simp [mapM, registers, withRegisters]

theorem eq_of_registers {e e' : Edge} (h : e'.registers = e.registers) : e' = e := by
  obtain ⟨target, arguments⟩ := e
  obtain ⟨target', arguments'⟩ := e'
  simpa [registers] using h

end Edge

namespace Terminator

inductive SameShape : Terminator → Terminator → Prop
  | goto {e e' : Edge} (h : e.SameShape e') : SameShape (.goto e) (.goto e')
  | branch (c c' : Register) {t t' f f' : Edge} (ht : t.SameShape t') (hf : f.SameShape f') :
      SameShape (.branch c t f) (.branch c' t' f')

theorem SameShape.edges {t t' : Terminator} (h : t.SameShape t') :
    t'.edges.map (·.arguments.length) = t.edges.map (·.arguments.length) := by
  cases h with
  | goto h => simpa [Terminator.edges, Edge.SameShape] using h
  | branch c c' ht hf => simpa [Terminator.edges, Edge.SameShape] using ⟨ht, hf⟩

def withRegisters : Terminator → List Register → Terminator
  | .goto e, rs => .goto (e.withRegisters rs)
  | .branch _ t f, c :: rs =>
    .branch c (t.withRegisters (rs.take t.registers.length))
      (f.withRegisters (rs.drop t.registers.length))
  | t, [] => t

theorem withRegisters_spec (t : Terminator) (rs : List Register)
    (h : rs.length = t.registers.length) :
    t.SameShape (t.withRegisters rs) ∧ (t.withRegisters rs).registers = rs := by
  cases t with
  | goto e =>
    obtain ⟨hshape, hread⟩ := e.withRegisters_spec rs h
    exact ⟨.goto hshape, hread⟩
  | branch c t f =>
    obtain ⟨c', rs, rfl⟩ := List.exists_cons_of_length_eq_add_one h
    have hlen : rs.length = t.registers.length + f.registers.length := by
      simpa [registers] using h
    obtain ⟨ht, htread⟩ := t.withRegisters_spec (rs.take t.registers.length) (by simp [hlen])
    obtain ⟨hf, hfread⟩ := f.withRegisters_spec (rs.drop t.registers.length) (by simp [hlen])
    refine ⟨.branch c c' ht hf, ?_⟩
    simp only [withRegisters, registers, htread, hfread, List.take_append_drop]

theorem mapM_eq_withRegisters {m : Type → Type} [Monad m] [LawfulMonad m] (t : Terminator)
    (f : Register → m Register) : t.mapM f = t.withRegisters <$> t.registers.mapM f := by
  cases t with
  | goto e =>
    have hrefill : (goto e).withRegisters = fun rs => goto (e.withRegisters rs) := rfl
    simp [mapM, registers, hrefill, Edge.mapM_eq_withRegisters]
  | branch c t e =>
    simp only [mapM, registers, List.mapM_cons, List.mapM_append, Edge.mapM_eq_withRegisters,
      map_eq_pure_bind, bind_assoc, pure_bind]
    congr 1
    funext c'
    -- The answers for the first edge are cut off again, at the length they have.
    apply mapM_bind_congr
    intro rs hrs
    simp [withRegisters, ← hrs]

theorem SameShape.eq_of_registers {t t' : Terminator} (h : t.SameShape t')
    (hread : t'.registers = t.registers) : t' = t := by
  cases h with
  | goto h => rw [Edge.eq_of_registers hread]
  | @branch c c' t t' f f' ht hf =>
    simp only [registers, List.cons.injEq] at hread
    have hlen : t'.registers.length = t.registers.length := by
      simpa [Edge.registers, Edge.SameShape] using ht
    obtain ⟨htread, hfread⟩ := List.append_inj hread.2 hlen
    rw [hread.1, Edge.eq_of_registers htread, Edge.eq_of_registers hfread]

-- Without the numbers of arguments, a list of registers does not tell where the second edge begins.
example : ∃ t u : Terminator, t.registers = u.registers ∧ t ≠ u :=
  ⟨.branch ⟨0⟩ ⟨⟨1⟩, [⟨2⟩]⟩ ⟨⟨3⟩, []⟩, .branch ⟨0⟩ ⟨⟨1⟩, []⟩ ⟨⟨2⟩, [⟨3⟩]⟩, rfl, by decide⟩

theorem covers : Covers registers SameShape mapM :=
  .of_refill withRegisters withRegisters_spec (fun t => t.mapM_eq_withRegisters)
    SameShape.eq_of_registers

end Terminator

/-- Reading and rewriting agree on operations and on terminators, whose edges keep their number and
pass as many arguments as before. -/
theorem rewriting_covers_reading :
    Covers Operation.operands Operation.SameShape Operation.mapM ∧
    Covers Terminator.registers Terminator.SameShape Terminator.mapM ∧
    ∀ t t' : Terminator, t.SameShape t' →
      t'.edges.map (·.arguments.length) = t.edges.map (·.arguments.length) :=
  ⟨Operation.covers, Terminator.covers, fun _ _ h => h.edges⟩

end BlockGraph

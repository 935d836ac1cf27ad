import BlockGraph.Lowering.Program
import BlockGraph.Proofs.Builder.Advances

namespace BlockGraph

namespace Builder

inductive Edits (b : BlockId) : {α : Type} → BuildM α → Prop
  | look {α : Type} {x : BuildM α} (h : ∀ s a s', Runs x s a s' → s' = s) : Edits b x
  | emit {op : Operation} (t : ValueType) (h : op.isPlain = true) : Edits b (emit b op t)
  | copy (r : Register) : Edits b (copy b r)
  | push (r : Register) : Edits b (push b r)
  | popMany (n : Nat) : Edits b (popMany b n)
  | rebind (name : String) (r : Register) : Edits b (rebind b name r)
  | seq {α β : Type} {x : BuildM α} {f : α → BuildM β} (P : α → Prop) (hx : Edits b x)
      (hP : ∀ s a s', Runs x s a s' → P a) (hf : ∀ a, P a → Edits b (f a)) : Edits b (x >>= f)

namespace Edits

variable {α β : Type} {b c : BlockId} {r : Register}

theorem bind {x : BuildM α} {f : α → BuildM β} (hx : Edits b x) (hf : ∀ a, Edits b (f a)) :
    Edits b (x >>= f) :=
  .seq (fun _ => True) hx (fun _ _ _ _ => trivial) fun a _ => hf a

theorem pure {a : α} : Edits b (Pure.pure a : BuildM α) := .look fun _ _ _ h => (Runs.pure_iff.1 h).2

theorem throw {e : Fault} : Edits b (MonadExcept.throw e : BuildM α) := .look (by simp)

theorem except {x : Except Fault α} : Edits b (liftM x : BuildM α) :=
  .look fun _ _ _ h => (Runs.lift_except_iff.1 h).2

theorem lastRegister : Edits b (lastRegister c) := .look (by simp)

theorem typeOf : Edits b (typeOf c r) := .look (by simp)

theorem peek {n : Nat} : Edits b (peek c n) := .look (by simp)

theorem pushLast : Edits b (pushLast b) := lastRegister.bind .push

theorem pop : Edits b (pop b) := by
  refine (Edits.popMany 1).bind fun rs => ?_
  split
  · exact .pure
  · exact .throw

end Edits

theorem Edits.stays {α : Type} {b : BlockId} {x : BuildM α} (h : Edits b x) : Stays b x := by
  induction h with
  | look h => exact stays_of_eq h
  | emit t h => exact stays_emit h
  | copy r => exact stays_copy
  | push r => exact stays_push
  | popMany n => exact stays_popMany
  | rebind name r => exact stays_rebind
  | seq P _ hP _ ihx ihf =>
    intro s b s' h
    obtain ⟨a, t, ha, hb⟩ := Runs.bind_iff.1 h
    exact Chains.trans (ihx ha) (ihf a (hP _ _ _ ha) hb)

end Builder

namespace Lowering

open Builder

variable {b c : BlockId} {r : Register} {place : Place} {t : ValueType} {rs : List Register}

theorem runs_classLayout {s s' : State} {k : ClassId} {l : LayoutId} :
    Runs (classLayout k) s l s' ↔ s.classes[k.index]? = some l ∧ s' = s := by
  simp only [classLayout, Runs.bind_iff, Runs.get_iff]
  constructor
  · rintro ⟨_, _, ⟨rfl, rfl⟩, h⟩
    split at h <;> simp_all
  · rintro ⟨hl, rfl⟩
    exact ⟨_, s', ⟨rfl, rfl⟩, by simp [hl]⟩

theorem runs_functionEntry {s s' : State} {f : FunctionId} {e : FunctionEntry} :
    Runs (functionEntry f) s e s' ↔ s.functions[f.index]? = some e ∧ s' = s := by
  simp only [functionEntry, Runs.bind_iff, Runs.get_iff]
  constructor
  · rintro ⟨_, _, ⟨rfl, rfl⟩, h⟩
    split at h <;> simp_all
  · rintro ⟨hl, rfl⟩
    exact ⟨_, s', ⟨rfl, rfl⟩, by simp [hl]⟩

/-! Places. -/

theorem readSymbol_state {s s' : Builder} {name : String} (h : Runs (readSymbol c name) s r s') :
    s' = s := by
  simp only [readSymbol, Runs.bind_iff, runs_locals] at h
  obtain ⟨_, _, ⟨B, -, rfl, rfl⟩, h⟩ := h
  split at h <;> simp at h
  exact h.2

theorem expectObject_state {s s' : Builder} {u : Unit} (h : Runs (expectObject c r) s u s') :
    s' = s := by
  simp only [expectObject, Runs.bind_iff, runs_typeOf] at h
  obtain ⟨_, _, ⟨B, -, -, rfl⟩, h⟩ := h
  split at h <;> simp at h
  exact h

theorem edits_readSymbol {name : String} : Edits b (readSymbol c name) :=
  .look fun _ _ _ h => readSymbol_state h

theorem edits_expectObject : Edits b (expectObject c r) := .look fun _ _ _ h => expectObject_state h

theorem edits_load : Edits b (load b place t) := by
  cases place with
  | var name => exact edits_readSymbol.bind fun _ => (Edits.copy _).bind fun _ => .pure
  | field index => exact Edits.peek.bind fun _ => (Edits.emit _ rfl).bind fun _ => .pure
  | element =>
    exact Edits.peek.bind fun _ => Edits.peek.bind fun _ => (Edits.emit _ rfl).bind fun _ => .pure

theorem edits_store : Edits b (store b place r) := by
  cases place with
  | var name => exact .rebind name r
  | field index => exact Edits.pop.bind fun _ => (Edits.emit _ rfl).bind fun _ => .pure
  | element =>
    refine (Edits.popMany 2).bind fun rs => ?_
    match rs with
    | [array, index] => exact (Edits.emit _ rfl).bind fun _ => .pure
    | [] | [_] | _ :: _ :: _ :: _ => exact .throw

theorem edits_emitOne : Edits b (emitOne b t) := by
  refine (Edits.emit _ rfl).bind fun _ => Edits.except.bind fun op => ?_
  cases op with
  | none => exact .pure
  | some op => exact (Edits.emit _ rfl).bind fun _ => .pure

theorem linear_isPlain {op : LinearOp} {o : Operation} (h : Operation.linear op rs = .ok o) :
    o.isPlain = true := by
  unfold Operation.linear at h
  split at h <;> simp only [Except.ok.injEq, reduceCtorEq] at h <;> subst h <;> rfl

theorem edits_update {op : BinaryOp} {old : Bool} : Edits b (update b place op t old) := by
  refine (Edits.popMany 2).bind fun rs => ?_
  match rs with
  | [first, operand] =>
    refine .seq (fun o => o.isPlain = true) .except (fun s o s' h => ?_) fun o ho =>
      (Edits.emit _ ho).bind fun _ => edits_store.bind fun _ => (Edits.copy _).bind fun _ => .pure
    exact linear_isPlain (Runs.lift_except_iff.1 h).1
  | [] | [_] | _ :: _ :: _ :: _ => exact .throw

theorem edits_storeFields {n : Nat} : Edits b (storeFields b r n rs) := by
  induction rs generalizing n with
  | nil => exact .pure
  | cons v vs ih => exact (Edits.emit _ rfl).bind fun _ => ih

theorem edits_loadFields {n : Nat} {ts : List ValueType} : Edits b (loadFields b r n ts) := by
  induction ts generalizing n with
  | nil => exact .pure
  | cons t ts ih => exact (Edits.emit _ rfl).bind fun _ => ih.bind fun _ => .pure

theorem edits_construct {l : LayoutId} {n : Nat} : Edits b (construct b l n) :=
  (Edits.popMany n).bind fun _ => (Edits.emit _ rfl).bind fun _ => edits_storeFields.bind fun _ =>
    (Edits.copy _).bind fun _ => .pure

/-! Types. -/

class TracesTypes (R : BlockId → State → BlockId → State → Prop) : Prop extends Chains R where
  returnLayout : ∀ {b : BlockId} {t : ValueType},
    Leads R b (fun _ => b) (liftM (returnLayout t) : LowerM LayoutId)

section Types

variable {R : BlockId → State → BlockId → State → Prop}

theorem traces_look [Chains R] {α : Type} {x : LowerM α} (h : ∀ s a s', Runs x s a s' → s' = s) :
    Leads R b (fun _ => b) x := by
  intro s a s' hr
  obtain rfl := h s a s' hr
  exact Chains.refl _ _

theorem traces_classLayout [Chains R] {k : ClassId} : Leads R b (fun _ => b) (classLayout k) :=
  traces_look fun _ _ _ h => (runs_classLayout.1 h).2

variable [TracesTypes R]

mutual

theorem traces_lowerType : (t : SourceType) → Leads R b (fun _ => b) (lowerType t)
  | .prim p => by
    rw [lowerType]
    exact .pure rfl
  | .object c => by
    rw [lowerType]
    exact traces_classLayout.bind fun _ => .pure rfl
  | .array element => by
    rw [lowerType]
    exact (traces_lowerType element).bind fun _ => .pure rfl
  | .function result parameters => by
    rw [lowerType]
    exact (traces_lowerType result).bind fun _ => TracesTypes.returnLayout.bind fun _ =>
      (traces_lowerTypes parameters).bind fun _ => .pure rfl

theorem traces_lowerTypes : (ts : List SourceType) → Leads R b (fun _ => b) (lowerTypes ts)
  | [] => by
    rw [lowerTypes]
    exact .pure rfl
  | t :: ts => by
    rw [lowerTypes]
    exact (traces_lowerType t).bind fun _ => (traces_lowerTypes ts).bind fun _ => .pure rfl

end

end Types

/-! Expressions. -/

class Traces (R : BlockId → State → BlockId → State → Prop) : Prop extends TracesTypes R where
  emit : ∀ {b : BlockId} {op : Operation} {t : ValueType}, op.isPlain = true →
    Leads R b (fun _ => b) (liftM (emit b op t) : LowerM Register)
  copy : ∀ {b : BlockId} {r : Register}, Leads R b (fun _ => b) (liftM (copy b r) : LowerM Register)
  push : ∀ {b : BlockId} {r : Register}, Leads R b (fun _ => b) (liftM (push b r) : LowerM Unit)
  popMany : ∀ {b : BlockId} {n : Nat},
    Leads R b (fun _ => b) (liftM (popMany b n) : LowerM (List Register))
  rebind : ∀ {b : BlockId} {name : String} {r : Register},
    Leads R b (fun _ => b) (liftM (rebind b name r) : LowerM Unit)
  define : ∀ {b : BlockId} {name : String} {x : Symbol},
    Leads R b (fun _ => b) (liftM (define b name x) : LowerM Unit)
  refer : ∀ {b : BlockId} {s : State} {k : Nat} {e : FunctionEntry} {r : Register} {t : Builder},
    s.functions[k]? = some e → Runs (emitRef b e.entry) s.toBuilder r t →
      R b s b { s with toBuilder := t }
  call : ∀ {b : BlockId} {n : Nat} {t : SourceType}, Leads R b id (lowerCall b n t)
  choose : ∀ {b onTrue onFalse first second merged : BlockId} {r : Register} {s s₁ s₂ : State}
    {t u : Builder}, Runs (lastRegister b) s.toBuilder r s.toBuilder →
      Runs (branch b r) s.toBuilder (onTrue, onFalse) t →
      R onTrue { s with toBuilder := t } first s₁ → R onFalse s₁ second s₂ →
      Runs (converge b [first, second]) s₂.toBuilder merged u →
      R b s merged { s₂ with toBuilder := u }

section Traversal

variable {R : BlockId → State → BlockId → State → Prop} [Traces R]

theorem traces_except {α : Type} {x : Except Fault α} :
    Leads R b (fun _ => b) (liftM x : LowerM α) :=
  traces_look fun _ _ _ h => (Runs.lift_except_lower_iff.1 h).2

theorem traces_edits {α : Type} {x : BuildM α} (h : Edits b x) :
    Leads R b (fun _ => b) (liftM x : LowerM α) := by
  induction h with
  | look h =>
    intro s a s' hr
    obtain ⟨t, ht, rfl⟩ := Runs.lift_build_iff.1 hr
    obtain rfl := h _ _ _ ht
    exact Chains.refl _ _
  | emit t h => exact Traces.emit h
  | copy r => exact Traces.copy
  | push r => exact Traces.push
  | popMany n => exact Traces.popMany
  | rebind name r => exact Traces.rebind
  | seq P _ hP _ ihx ihf =>
    intro s c s' hr
    obtain ⟨u, hu, rfl⟩ := Runs.lift_build_iff.1 hr
    obtain ⟨a, t, ha, hc⟩ := Runs.bind_iff.1 hu
    exact Chains.trans (ihx (Runs.lift_build_iff.2 ⟨t, ha, rfl⟩))
      (ihf a (hP _ _ _ ha) (Runs.lift_build_iff.2 ⟨u, hc, rfl⟩))

theorem traces_applyLinear {op : LinearOp} {t : SourceType} :
    Leads R b (fun _ => b) (applyLinear b op t) := by
  refine (traces_edits (.popMany op.arity)).bind fun rs => (traces_lowerType t).bind fun vt => ?_
  refine Leads.look (P := fun o => o.isPlain = true) (fun s o s' h => ?_) fun o ho =>
    (Traces.emit ho).bind fun _ => .pure rfl
  obtain ⟨ho, rfl⟩ := Runs.lift_except_lower_iff.1 h
  exact ⟨linear_isPlain ho, rfl⟩

theorem constructed_inv {k : ClassId} {n : Nat} {l : LayoutId} {s s' : State}
    (h : Runs (constructed k n) s l s') : s.classes[k.index]? = some l ∧ s' = s := by
  simp only [constructed, Runs.bind_iff, runs_classLayout, Runs.lift_build_iff, runs_layout,
    Runs.ite_iff, Runs.throw_iff, Runs.pure_iff] at h
  obtain ⟨l, _, ⟨hl, rfl⟩, K, _, ⟨_, ⟨-, rfl⟩, rfl⟩, ⟨-, -, -, h, -⟩ | ⟨-, rfl, rfl⟩⟩ := h
  · exact h.elim
  · exact ⟨hl, rfl⟩

theorem traces_constructed {k : ClassId} {n : Nat} : Leads R b (fun _ => b) (constructed k n) := by
  have hlayout (l : LayoutId) : Edits b (layout l) := .look (by simp)
  exact traces_classLayout.bind fun l => (traces_edits (hlayout l)).bind fun _ =>
    .ite (Leads.throw.bind fun _ => .pure rfl) (.pure rfl)

mutual

theorem traces_lowerExpr (b : BlockId) : (e : Expr) → Leads R b id (lowerExpr b e)
  | .literal value type => by
    rw [lowerExpr]
    exact (traces_lowerType type).bind fun _ => (Traces.emit rfl).bind fun _ => .pure rfl
  | .var name type => by
    rw [lowerExpr]
    exact (traces_edits edits_readSymbol).bind fun _ => Traces.copy.bind fun _ => .pure rfl
  | .function f type => by
    rw [lowerExpr]
    intro s c s' h
    simp only [Runs.bind_iff, runs_functionEntry, Runs.lift_build_iff, Runs.pure_iff] at h
    obtain ⟨e, _, ⟨he, rfl⟩, r, _, ⟨t, href, rfl⟩, rfl, rfl⟩ := h
    exact Traces.refer he href
  | .unary op operand type => by
    rw [lowerExpr]
    exact (traces_lowerExpr b operand).bind fun _ => (traces_edits .pushLast).bind fun _ =>
      traces_applyLinear.bind fun _ => .pure rfl
  | .binary op left right type => by
    rw [lowerExpr]
    exact (traces_lowerExpr b left).bind fun c => (traces_edits .pushLast).bind fun _ =>
      (traces_lowerExpr c right).bind fun _ => (traces_edits .pushLast).bind fun _ =>
      traces_applyLinear.bind fun _ => .pure rfl
  | .logic op left right type => by
    rw [lowerExpr]
    exact .throw
  | .cast op operand type => by
    rw [lowerExpr]
    exact traces_except.bind fun _ => (traces_lowerExpr b operand).bind fun _ =>
      (traces_edits .lastRegister).bind fun _ => (traces_lowerType type).bind fun _ =>
      (Traces.emit rfl).bind fun _ => .pure rfl
  | .field object index type => by
    rw [lowerExpr]
    exact (traces_lowerExpr b object).bind fun _ => (traces_edits .lastRegister).bind fun _ =>
      (traces_edits edits_expectObject).bind fun _ => (traces_lowerType type).bind fun _ =>
      (Traces.emit rfl).bind fun _ => .pure rfl
  | .assign target value type => by
    rw [lowerExpr]
    refine (traces_lowerAddress b target).bind fun (c, place) =>
      (traces_lowerExpr c value).bind fun d => (traces_edits .lastRegister).bind fun r =>
      (traces_edits edits_store).bind fun _ => ?_
    cases place with
    | var name => exact .pure rfl
    | field index => exact Traces.copy.bind fun _ => .pure rfl
    | element => exact Traces.copy.bind fun _ => .pure rfl
  | .compound op target value type => by
    rw [lowerExpr]
    exact (traces_lowerType type).bind fun _ => (traces_lowerAddress b target).bind fun (c, place) =>
      (traces_edits edits_load).bind fun _ => (traces_edits .pushLast).bind fun _ =>
      (traces_lowerExpr c value).bind fun _ => (traces_edits .pushLast).bind fun _ =>
      (traces_edits edits_update).bind fun _ => .pure rfl
  | .step op target type => by
    rw [lowerExpr]
    exact (traces_lowerType type).bind fun _ => (traces_lowerAddress b target).bind fun (c, place) =>
      (traces_edits edits_load).bind fun _ => (traces_edits .pushLast).bind fun _ =>
      (traces_edits edits_emitOne).bind fun _ => (traces_edits .pushLast).bind fun _ =>
      (traces_edits edits_update).bind fun _ => .pure rfl
  | .conditional condition first second type => by
    rw [lowerExpr]
    refine (traces_lowerExpr b condition).bind fun c => ?_
    intro s merged s' h
    simp only [Runs.bind_iff, Runs.lift_build_iff] at h
    obtain ⟨r, _, ⟨t, hlast, rfl⟩, ⟨onTrue, onFalse⟩, _, ⟨t₁, hbranch, rfl⟩, h⟩ := h
    obtain ⟨-, -, -, rfl⟩ := runs_lastRegister.1 hlast
    simp only [Runs.pure_iff] at h
    obtain ⟨first', s₂, hfirst, _, _, ⟨t₃, hpush, rfl⟩, second', s₄, hsecond, _, _,
      ⟨t₅, hpush', rfl⟩, _, _, ⟨t₆, hmerge, rfl⟩, _, _, ⟨t₇, hpop, rfl⟩, _, _, ⟨t₈, hcopy, rfl⟩,
      rfl, rfl⟩ := h
    dsimp only at hfirst hpush hpush' hmerge hpop hcopy
    -- both arms end by pushing their value, which the merged block pops
    have harm := Chains.trans (traces_lowerExpr onTrue first hfirst)
      (traces_edits .pushLast (Runs.lift_build_iff.2 ⟨_, hpush, rfl⟩))
    have harm' := Chains.trans (traces_lowerExpr onFalse second hsecond)
      (traces_edits .pushLast (Runs.lift_build_iff.2 ⟨_, hpush', rfl⟩))
    refine Chains.trans (Traces.choose hlast hbranch harm harm' hmerge) ?_
    exact traces_edits (Edits.pop.bind .copy) (Runs.lift_build_iff.2
      ⟨_, Runs.bind_iff.2 ⟨_, _, hpop, hcopy⟩, rfl⟩)
  | .call callee arguments type => by
    rw [lowerExpr]
    exact (traces_lowerExpr b callee).bind fun c => (traces_edits .pushLast).bind fun _ =>
      (traces_lowerOperands c arguments).bind fun _ => Traces.call
  | .new k arguments type => by
    rw [lowerExpr]
    exact traces_constructed.bind fun _ => (traces_lowerOperands b arguments).bind fun _ =>
      (traces_edits edits_construct).bind fun _ => .pure rfl
  | .newArray length type => by
    rw [lowerExpr]
    exact (traces_lowerExpr b length).bind fun _ => (traces_edits .lastRegister).bind fun _ =>
      (traces_lowerType type).bind fun _ => (Traces.emit rfl).bind fun _ => .pure rfl
  | .native name arguments type => by
    rw [lowerExpr]
    exact (traces_lowerOperands b arguments).bind fun _ => Traces.popMany.bind fun _ =>
      (traces_lowerType type).bind fun _ => (Traces.emit rfl).bind fun _ => .pure rfl

theorem traces_lowerOperands (b : BlockId) :
    (es : List Expr) → Leads R b id (lowerOperands b es)
  | [] => by
    rw [lowerOperands]
    exact .pure rfl
  | e :: es => by
    rw [lowerOperands]
    exact (traces_lowerExpr b e).bind fun c => (traces_edits .pushLast).bind fun _ =>
      traces_lowerOperands c es

theorem traces_lowerAddress (b : BlockId) :
    (e : Expr) → Leads R b Prod.fst (lowerAddress b e)
  | .var name type => by
    rw [lowerAddress]
    exact .pure rfl
  | .field object index type => by
    rw [lowerAddress]
    exact (traces_lowerExpr b object).bind fun _ => (traces_edits .lastRegister).bind fun _ =>
      (traces_edits edits_expectObject).bind fun _ => (traces_edits .pushLast).bind fun _ =>
      .pure rfl
  | .binary .index array index type => by
    rw [lowerAddress]
    exact (traces_lowerExpr b array).bind fun c => (traces_edits .pushLast).bind fun _ =>
      (traces_lowerExpr c index).bind fun _ => (traces_edits .pushLast).bind fun _ => .pure rfl
  | .literal .. | .function .. | .unary .. | .logic .. | .cast .. | .assign .. | .compound ..
  | .step .. | .conditional .. | .call .. | .new .. | .newArray .. | .native ..
  | .binary (.compare _) .. | .binary (.numeric _) .. | .binary (.shift _) .. | .binary .concat ..
  | .binary .identity .. => by
    simp only [lowerAddress]
    exact .throw

end

/-! Definitions and the values of returns. -/

theorem traces_clauseType {type : Option ValueType} {c : Clause} :
    Leads R b (fun _ => b) (clauseType type c) := by
  unfold clauseType
  split
  · exact .pure rfl
  · exact traces_lowerType _
  · exact .throw

theorem traces_lowerClauses {type : Option ValueType} {cs : List Clause} :
    Leads R b id (lowerClauses type b cs) := by
  induction cs generalizing b with
  | nil =>
    rw [lowerClauses]
    exact .pure rfl
  | cons c rest ih =>
    rw [lowerClauses]
    have htell (b : BlockId) (e : Event) : Edits b (tell e) := .look (by simp)
    have hdefine (b : BlockId) (r : Option Register) : Leads R b id (do
        let t ← clauseType type c
        tell (.symbolDefined c.name t b)
        define b c.name ⟨t, r⟩
        lowerClauses type b rest) :=
      traces_clauseType.bind fun t => (traces_edits (htell b _)).bind fun _ =>
        Traces.define.bind fun _ => ih
    cases c.value with
    | none => exact Leads.bind (.pure rfl : Leads R b Prod.fst _) fun (b, r) => hdefine b r
    | some value =>
      exact (traces_lowerExpr b value).bind fun c => (traces_edits .lastRegister).bind fun r =>
        Leads.bind (.pure rfl : Leads R c Prod.fst _) fun (b, r) => hdefine b r

theorem traces_lowerReturnValue {result : ValueType} {value : Option Expr} :
    Leads R b Prod.fst (lowerReturnValue result b value) := by
  cases value with
  | none => exact .ite (Leads.throw.bind fun _ => .pure rfl) (.pure rfl)
  | some value =>
    have hvalue := (traces_lowerExpr b value).bind fun c =>
      (traces_edits (.lastRegister (b := c) (c := c))).bind fun r =>
        (Leads.pure rfl : Leads R c Prod.fst (pure (c, some r)))
    exact .ite (Leads.throw.bind fun _ => hvalue) hvalue

end Traversal

end Lowering

end BlockGraph

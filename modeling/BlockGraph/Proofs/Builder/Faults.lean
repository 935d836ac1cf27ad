import BlockGraph.Builder.Layout
import BlockGraph.Proofs.Runs
import BlockGraph.Proofs.Text.Types

namespace BlockGraph

@[simp] def Fault.TellsApart : Fault → Prop
  | .edgeMismatch _ expected found => expected ≠ found
  | _ => True

structure Sincere {α : Type} (y : Except Fault α) : Prop where
  fault : ∀ e, y = .error e → e.TellsApart

structure Discerns {σ α : Type} (x : StateT σ Logged α) : Prop where
  fault : ∀ s e, (x.run s).result = .error e → e.TellsApart

namespace Sincere

variable {α β : Type}

@[simp] theorem ok {a : α} : Sincere (.ok a : Except Fault α) := ⟨nofun⟩

@[simp] theorem pure {a : α} : Sincere (Pure.pure a : Except Fault α) := ⟨nofun⟩

@[simp] theorem error_iff {e : Fault} : Sincere (.error e : Except Fault α) ↔ e.TellsApart :=
  ⟨fun h => h.fault e rfl, fun h => ⟨by rintro _ ⟨⟩; exact h⟩⟩

@[simp] theorem throw_iff {e : Fault} : Sincere (throw e : Except Fault α) ↔ e.TellsApart :=
  error_iff

@[simp] theorem bind {y : Except Fault α} {f : α → Except Fault β} (hy : Sincere y)
    (hf : ∀ a, Sincere (f a)) : Sincere (y >>= f) := by
  cases y with
  | error e => exact error_iff.2 (hy.fault e rfl)
  | ok a => exact hf a

theorem ite {c : Prop} [Decidable c] {x y : Except Fault α} (hx : c → Sincere x)
    (hy : ¬c → Sincere y) : Sincere (if c then x else y) := by
  split
  · exact hx ‹c›
  · exact hy ‹¬c›

theorem mapM {f : α → Except Fault β} {as : List α} (hf : ∀ a, Sincere (f a)) :
    Sincere (as.mapM f) := by
  induction as with
  | nil => simp
  | cons a as ih => rw [List.mapM_cons]; exact (hf a).bind fun _ => ih.bind fun _ => pure

end Sincere

namespace Discerns

variable {σ α β : Type} {x : StateT σ Logged α}

@[simp] theorem pure {a : α} : Discerns (pure a : StateT σ Logged α) :=
  ⟨fun _ _ h => nomatch h⟩

@[simp] theorem throw_iff {e : Fault} : Discerns (throw e : BuildM α) ↔ e.TellsApart :=
  ⟨fun h => h.fault {} e rfl, fun h => ⟨by rintro _ _ ⟨⟩; exact h⟩⟩

@[simp] theorem throw_lower_iff {e : Fault} : Discerns (throw e : LowerM α) ↔ e.TellsApart :=
  ⟨fun h => h.fault {} e rfl, fun h => ⟨by rintro _ _ ⟨⟩; exact h⟩⟩

theorem throw {e : Fault} (h : e.TellsApart) : Discerns (throw e : StateT σ Logged α) :=
  ⟨by rintro _ _ ⟨⟩; exact h⟩

@[simp] theorem get : Discerns (get : StateT σ Logged σ) := ⟨fun _ _ h => nomatch h⟩

@[simp] theorem modify {f : σ → σ} : Discerns (modify f : StateT σ Logged PUnit) :=
  ⟨fun _ _ h => nomatch h⟩

@[simp] theorem bind {f : α → StateT σ Logged β} (hx : Discerns x) (hf : ∀ a, Discerns (f a)) :
    Discerns (x >>= f) := by
  refine ⟨fun s e h => ?_⟩
  rw [StateT.run_bind] at h
  cases hrun : (x.run s).result with
  | error e' =>
    obtain rfl : e' = e := by simpa [Bind.bind, hrun] using h
    exact hx.fault s e' hrun
  | ok p => exact (hf p.1).fault p.2 e (by simpa [Bind.bind, hrun] using h)

@[simp] theorem map {f : α → β} (hx : Discerns x) : Discerns (f <$> x) := by
  rw [map_eq_pure_bind]
  exact hx.bind fun _ => pure

@[simp] theorem discard (hx : Discerns x) : Discerns (discard x) := hx.map

@[simp] theorem ite {c : Prop} [Decidable c] {y : StateT σ Logged α} (hx : c → Discerns x)
    (hy : ¬c → Discerns y) : Discerns (if c then x else y) := by
  split
  · exact hx ‹c›
  · exact hy ‹¬c›

theorem forM {f : α → StateT σ Logged Unit} {as : List α} (hf : ∀ a, Discerns (f a)) :
    Discerns (as.forM f) := by
  induction as with
  | nil => exact pure
  | cons a as ih => exact (hf a).bind fun _ => ih

theorem mapM {f : α → StateT σ Logged β} {as : List α} (hf : ∀ a, Discerns (f a)) :
    Discerns (as.mapM f) := by
  induction as with
  | nil => simp
  | cons a as ih => rw [List.mapM_cons]; exact (hf a).bind fun _ => ih.bind fun _ => pure

@[simp] theorem lift_except {y : Except Fault α} (h : Sincere y) :
    Discerns (liftM y : StateT σ Logged α) := by
  refine ⟨fun s e he => ?_⟩
  cases y with
  | ok a => exact nomatch he
  | error e' =>
    obtain rfl : e' = e := Except.error.inj he
    exact h.fault e' rfl

@[simp] theorem lift_build {y : BuildM α} (h : Discerns y) : Discerns (liftM y : LowerM α) := by
  refine ⟨fun s e he => ?_⟩
  change (y.run s.toBuilder >>= fun p => Pure.pure (p.1, { s with toBuilder := p.2 })).result = _
    at he
  cases hrun : (y.run s.toBuilder).result with
  | error e' =>
    obtain rfl : e' = e := by simpa [Bind.bind, hrun] using he
    exact h.fault s.toBuilder e' hrun
  | ok p => simp [Bind.bind, hrun, Pure.pure] at he

@[simp] theorem lift_except_lower {y : Except Fault α} (h : Sincere y) :
    Discerns (liftM y : LowerM α) :=
  lift_build (y := liftM y) (lift_except h)

end Discerns

section Lookups

variable {g : Graph} {b : BlockId} {B : Block} {r : Register} {l : LayoutId}

@[simp] theorem sincere_block : Sincere (g.block b) := by
  unfold Graph.block
  split <;> simp

@[simp] theorem sincere_layout : Sincere (g.layout l) := by
  unfold Graph.layout
  split <;> simp

@[simp] theorem sincere_typeOf : Sincere (B.typeOf r) := by
  unfold Block.typeOf
  split <;> simp

@[simp] theorem sincere_checkEdge {e : Edge} : Sincere (B.checkEdge e) := by
  unfold Block.checkEdge
  refine sincere_typeOf.bind fun t => ?_
  split
  · rename_i expected
    refine (Sincere.mapM fun _ => sincere_typeOf).bind fun found => ?_
    by_cases heq : expected = found
    · simp [heq]
    · simp only [ne_eq, heq, not_false_eq_true, if_true, Sincere.throw_iff, Fault.TellsApart]
      exact fun htext => heq (ValueType.listText_inj htext)
  · simp

@[simp] theorem sincere_arguments {s : Signature} {l : Locals} {c : BlockId} :
    Sincere (s.arguments l b c) := by
  have hrest {f : String → Except Fault Register} (hf : ∀ name, Sincere (f name))
      (slot : List Register) : Sincere (do
      let carried ← s.carried.mapM f
      if l.stack.length ≠ s.stackDepth then throw (.shapeMismatch c b)
      return slot ++ carried ++ l.stack) :=
    Sincere.bind (.mapM hf) fun _ => .ite (fun _ => .bind (by simp) fun _ => .pure) fun _ => .pure
  unfold Signature.arguments
  cases s.acceptsReturn with
  | false => exact Sincere.pure.bind (hrest fun _ => by split <;> simp)
  | true =>
    cases l.returnSlot with
    | none => exact .bind (by simp) (hrest fun _ => by split <;> simp)
    | some r => exact Sincere.pure.bind (hrest fun _ => by split <;> simp)

@[simp] theorem sincere_define {t : SymbolTable} {name : String} {v : Symbol} :
    Sincere (t.define name v) := by
  unfold SymbolTable.define
  split <;> simp

@[simp] theorem sincere_rebind {t : SymbolTable} {name : String} :
    Sincere (t.rebind name r) := by
  unfold SymbolTable.rebind
  split <;> simp

@[simp] theorem sincere_linear {op : LinearOp} {rs : List Register} :
    Sincere (Operation.linear op rs) := by
  unfold Operation.linear
  split <;> simp

end Lookups

namespace Builder

variable {b c : BlockId} {r : Register} {preds : List BlockId}

@[simp] theorem discerns_tell {e : Event} : Discerns (tell e) := ⟨fun _ _ h => nomatch h⟩

@[simp] theorem discerns_report {d : Diagnostic} : Discerns (report d) := by simp [report]

@[simp] theorem discerns_block : Discerns (block b) := by simp [block]

@[simp] theorem discerns_layout {l : LayoutId} : Discerns (layout l) := by simp [layout]

@[simp] theorem discerns_modifyBlock {f : Block → Block} : Discerns (modifyBlock b f) := by
  simp [modifyBlock]

@[simp] theorem discerns_locals : Discerns (locals b) := by simp [locals]

@[simp] theorem discerns_setLocals {l : Locals} : Discerns (setLocals b l) := by simp [setLocals]

@[simp] theorem discerns_addBlock {ps : List Parameter} : Discerns (addBlock ps) :=
  Discerns.get.bind fun _ => discerns_tell.bind fun _ => by simp

@[simp] theorem discerns_typeOf : Discerns (typeOf b r) := by simp [typeOf]

@[simp] theorem discerns_lastRegister : Discerns (lastRegister b) := by
  refine discerns_block.bind fun B => ?_
  split <;> simp

@[simp] theorem discerns_emit {op : Operation} {t : ValueType} : Discerns (emit b op t) := by
  refine discerns_block.bind fun B =>
    .ite (fun _ => .bind (.throw trivial) fun _ => ?_) fun _ => ?_
  all_goals split <;> simp

@[simp] theorem discerns_emitRef : Discerns (emitRef b c) := by simp [emitRef]

@[simp] theorem discerns_copy : Discerns (copy b r) := by simp [copy]

@[simp] theorem discerns_define {name : String} {v : Symbol} : Discerns (define b name v) :=
  discerns_locals.bind fun _ => by simp

@[simp] theorem discerns_rebind {name : String} : Discerns (rebind b name r) :=
  discerns_locals.bind fun _ => by simp

@[simp] theorem discerns_push : Discerns (push b r) :=
  discerns_block.bind fun _ =>
    .ite (fun _ => .bind (.throw trivial) fun _ => discerns_setLocals) fun _ => discerns_setLocals

@[simp] theorem discerns_pushLast : Discerns (pushLast b) := by simp [pushLast]

@[simp] theorem discerns_popMany {n : Nat} : Discerns (popMany b n) := by
  unfold popMany
  refine .ite (fun _ => .pure) fun _ => discerns_locals.bind fun l =>
    .ite (fun _ => .bind (.throw trivial) fun _ => ?_) fun _ => ?_
  all_goals simp

@[simp] theorem discerns_pop : Discerns (pop b) := by
  refine discerns_popMany.bind fun rs => ?_
  split <;> simp

@[simp] theorem discerns_peek {n : Nat} : Discerns (peek b n) := by
  refine discerns_locals.bind fun l => ?_
  split <;> simp

@[simp] theorem discerns_edge : Discerns (edge b c) :=
  discerns_block.bind fun _ => discerns_locals.bind fun _ => .bind (by simp) fun _ =>
    discerns_emitRef.bind fun _ => discerns_block.bind fun _ => by simp

@[simp] theorem discerns_terminate {t : Terminator} : Discerns (terminate b t) := by
  refine discerns_block.bind fun B =>
    .ite (fun _ => .bind (.throw trivial) fun _ => ?_) fun _ => ?_
  all_goals simp

@[simp] theorem discerns_jump : Discerns (jump b c) := by simp [jump]

@[simp] theorem discerns_goto {e : Edge} : Discerns (goto b e) :=
  discerns_block.bind fun _ => by simp

@[simp] theorem discerns_branchTo {d : BlockId} : Discerns (branchTo b r c d) := by
  simp [branchTo]

@[simp] theorem discerns_finish : Discerns (finish b) := by
  refine discerns_block.bind fun B =>
    .ite (fun _ => .bind (.throw trivial) fun _ => ?_) fun _ => ?_
  all_goals simp

@[simp] theorem discerns_newChild : Discerns (newChild c preds) := by
  unfold newChild
  split
  · simp
  · rename_i first rest
    refine discerns_locals.bind fun l => Discerns.bind (.mapM fun pred => ?_) fun before => ?_
    · exact discerns_locals.bind fun _ =>
        .ite (fun _ => .bind (.throw trivial) fun _ => .pure) fun _ => .pure
    · refine discerns_block.bind fun context => discerns_block.bind fun source =>
        Discerns.bind ?_ fun slot => Discerns.bind (.mapM fun r => by simp) fun stack => ?_
      · cases context.locals.returnSlot <;> simp
      · exact Discerns.bind (.forM fun _ => discerns_report) fun _ => by simp

@[simp] theorem discerns_enter : Discerns (enter b) := by simp [enter]

@[simp] theorem discerns_leave : Discerns (leave c b) := by simp [leave]

@[simp] theorem discerns_branch : Discerns (branch b r) :=
  discerns_newChild.bind fun _ => by simp

@[simp] theorem discerns_converge : Discerns (converge c preds) :=
  discerns_newChild.bind fun _ => .bind (.forM fun _ => discerns_jump) fun _ => .pure

@[simp] theorem discerns_convergeBranch : Discerns (convergeBranch c preds b r) :=
  discerns_newChild.bind fun _ => discerns_newChild.bind fun _ =>
    .bind (.forM fun _ => discerns_jump) fun _ => discerns_branchTo.bind fun _ => .pure

@[simp] theorem discerns_merge {d : BlockId} : Discerns (merge c b d) := discerns_converge

@[simp] theorem discerns_nextLayout : Discerns nextLayout := by simp [nextLayout]

@[simp] theorem discerns_addLayout {l : Layout} : Discerns (addLayout l) :=
  discerns_nextLayout.bind fun _ => by simp

@[simp] theorem discerns_returnLayout {t : ValueType} : Discerns (returnLayout t) := by
  refine Discerns.get.bind fun s => ?_
  split
  · simp
  · exact discerns_nextLayout.bind fun _ => by simp

@[simp] theorem discerns_declareClass {name : String} : Discerns (declareClass name) :=
  discerns_addLayout

@[simp] theorem discerns_defineClass {l : LayoutId} {ts : List ValueType} :
    Discerns (defineClass l ts) := by simp [defineClass]

@[simp] theorem discerns_contextLayout {ts : List ValueType} : Discerns (contextLayout ts) :=
  discerns_addLayout

end Builder

end BlockGraph

import BlockGraph.Proofs.Builder.Zones
import BlockGraph.Proofs.Safety.Calls

namespace BlockGraph

def Block.scope (B : Block) : List (String × ValueType) :=
  B.locals.symbols.entries.map fun e => (e.1, e.2.type)

theorem scope_congr {es es' : List (String × Symbol)}
    (h : List.Forall₂ (fun e e' => e'.1 = e.1 ∧ e'.2.type = e.2.type) es es') :
    es'.map (fun e => (e.1, e.2.type)) = es.map fun e => (e.1, e.2.type) := by
  induction h with
  | nil => rfl
  | cons he _ ih => rw [List.map_cons, List.map_cons, ih, he.1, he.2]

theorem Inflow.block_scope (i : Inflow) (id : BlockId) :
    (i.block id).scope = i.symbols.entries.map fun e => (e.1, e.2.type) :=
  scope_congr ((i.forall₂_symbols (·.2.type) i.stack rfl).imp fun _ _ h => ⟨h.1, h.2.1⟩)

namespace Graph

variable {g g' : Graph} {b : BlockId} {σ τ : Shape} {Γ : List (String × ValueType)}

def Framed (g : Graph) (b : BlockId) (σ : Shape) (Γ : List (String × ValueType)) : Prop :=
  ∃ B, g.block? b = some B ∧ B.Has σ ∧ B.scope = Γ

def Staged (g : Graph) (b : BlockId) (σ : Shape) (Γ : List (String × ValueType)) : Prop :=
  ∃ B, g.block? b = some B ∧ B.isTerminated = false ∧ B.Has σ ∧ B.scope = Γ

theorem Staged.framed (h : g.Staged b σ Γ) : g.Framed b σ Γ := by
  obtain ⟨B, hB, -, hhas⟩ := h
  exact ⟨B, hB, hhas⟩

theorem Staged.open (h : g.Staged b σ Γ) : g.Open b σ := by
  obtain ⟨B, hB, hopen, hhas, -⟩ := h
  exact ⟨B, hB, hopen, hhas⟩

theorem Framed.shaped (h : g.Framed b σ Γ) : g.Shaped b σ := by
  obtain ⟨B, hB, hhas, -⟩ := h
  exact ⟨B, hB, hhas⟩

theorem Staged.kept (h : g.Staged b σ Γ) (hb : ∀ B, g.block? b = some B → g'.block? b = some B) :
    g'.Staged b σ Γ := by
  obtain ⟨B, hB, hrest⟩ := h
  exact ⟨B, hb B hB, hrest⟩

theorem Framed.kept (h : g.Framed b σ Γ) (hb : ∀ B, g.block? b = some B → g'.block? b = some B) :
    g'.Framed b σ Γ := by
  obtain ⟨B, hB, hrest⟩ := h
  exact ⟨B, hb B hB, hrest⟩

end Graph

def Moulds {τ α : Type} (graph : τ → Graph) (x : StateT τ Logged α) (b : BlockId) (m : Nat)
    (c : α → BlockId) (n : α → Nat) : Prop :=
  ∀ ⦃s a s'⦄, Runs x s a s' → ∀ (σ : Shape) Γ, (graph s).Staged b (σ.deeper m) Γ →
    (graph s').Staged (c a) (σ.deeper (n a)) Γ

namespace Moulds

variable {τ α β : Type} {graph : τ → Graph} {b : BlockId} {m : Nat} {c : α → BlockId} {n : α → Nat}
  {d : β → BlockId} {k : β → Nat}

theorem bind {x : StateT τ Logged α} {f : α → StateT τ Logged β} (hx : Moulds graph x b m c n)
    (hf : ∀ a, Moulds graph (f a) (c a) (n a) d k) : Moulds graph (x >>= f) b m d k := by
  intro s a s' h σ Γ hb
  obtain ⟨a', t, hx', hf'⟩ := Runs.bind_iff.1 h
  exact hf a' hf' σ Γ (hx hx' σ Γ hb)

theorem look {x : StateT τ Logged α} (h : ∀ s a s', Runs x s a s' → s' = s) :
    Moulds graph x b m (fun _ => b) fun _ => m := by
  intro s a s' hrun σ Γ hb
  obtain rfl := h s a s' hrun
  exact hb

theorem pure {a : α} (hc : c a = b) (hn : n a = m) :
    Moulds graph (Pure.pure a : StateT τ Logged α) b m c n := by
  intro s a' s' hrun σ Γ hb
  obtain ⟨rfl, rfl⟩ := Runs.pure_iff.1 hrun
  rwa [hc, hn]

theorem throw {e : Fault} : Moulds graph (MonadExcept.throw e : StateT τ Logged α) b m c n := by
  intro s a s' hrun
  simp at hrun

theorem except {x : Except Fault α} :
    Moulds graph (liftM x : StateT τ Logged α) b m (fun _ => b) fun _ => m :=
  look fun _ _ _ h => (Runs.lift_except_iff.1 h).2

end Moulds

def Delivers {τ α : Type} (graph : τ → Graph) (x : StateT τ Logged α) (c : α → BlockId) : Prop :=
  ∀ ⦃s a s'⦄, Runs x s a s' → ∃ C, (graph s').block? (c a) = some C ∧ 0 < C.registerCount

namespace Delivers

variable {τ α β : Type} {graph : τ → Graph} {c : α → BlockId} {d : β → BlockId}

theorem last {x : StateT τ Logged α} {f : α → StateT τ Logged β} (hf : ∀ a, Delivers graph (f a) d) :
    Delivers graph (x >>= f) d := by
  intro s a s' h
  obtain ⟨a', t, -, hf'⟩ := Runs.bind_iff.1 h
  exact hf a' hf'

theorem yields {x : StateT τ Logged α} {b : BlockId} {a : β} (hx : Delivers graph x fun _ => b)
    (ha : d a = b) : Delivers graph (x >>= fun _ => pure a) d := by
  intro s a' s' h
  obtain ⟨_, t, hx', h⟩ := Runs.bind_iff.1 h
  obtain ⟨rfl, rfl⟩ := Runs.pure_iff.1 h
  rw [ha]
  exact hx hx'

theorem throw {e : Fault} : Delivers graph (MonadExcept.throw e : StateT τ Logged α) c := by
  intro s a s' h
  simp at h

end Delivers

namespace Builder

variable {u : Unit}

abbrev Delivers {α : Type} (x : BuildM α) (c : α → BlockId) : Prop :=
  BlockGraph.Delivers (fun s : Builder => s.graph) x c

abbrev Moulds {α : Type} (x : BuildM α) (b : BlockId) (m : Nat) (c : α → BlockId) (n : α → Nat) :
    Prop :=
  BlockGraph.Moulds (fun s : Builder => s.graph) x b m c n

variable {s s' : Builder} {b c d x context : BlockId} {preds : List BlockId} {r : Register} {m n : Nat}
  {σ : Shape} {Γ : List (String × ValueType)}

/-! Code, variables and operands. -/

theorem staged_push (i : Instruction) (h : s.graph.Staged b σ Γ) :
    (s.updateBlock b (·.push i)).graph.Staged b σ Γ := by
  obtain ⟨B', hB', hopen, hhas, hscope⟩ := h
  exact ⟨_, updateBlock_self hB' _, hopen, hhas.push i, hscope⟩

theorem moulds_emit {op : Operation} {t : ValueType} :
    Moulds (emit b op t) b m (fun _ => b) fun _ => m := by
  intro s r s' h σ Γ hb
  obtain ⟨B, -, -, -, -, rfl⟩ := runs_emit.1 h
  exact staged_push _ hb

theorem moulds_emitRef : Moulds (emitRef b c) b m (fun _ => b) fun _ => m := by
  intro s r s' h σ Γ hb
  obtain ⟨T, B, -, -, -, -, rfl⟩ := runs_emitRef.1 h
  exact staged_push _ hb

theorem moulds_copy : Moulds (copy b r) b m (fun _ => b) fun _ => m := by
  intro s r s' h σ Γ hb
  obtain ⟨B, t, -, -, -, -, rfl⟩ := runs_copy.1 h
  exact staged_push _ hb

theorem moulds_rebind {name : String} : Moulds (rebind b name r) b m (fun _ => b) fun _ => m := by
  intro s u s' h σ Γ hb
  obtain ⟨B, symbols, hB, hbind, rfl⟩ := runs_rebind.1 h
  obtain ⟨B', hB', hopen, hhas, hscope⟩ := hb
  obtain rfl := Option.some.inj (hB.symm.trans hB')
  have hentries := SymbolTable.rebind_entries hbind
  refine ⟨_, updateBlock_self hB _, hopen, hhas.withSymbols fun e he hsome => ?_, ?_⟩
  · rw [hentries]
    refine ⟨_, List.mem_map_of_mem he, ?_, ?_⟩ <;> split <;> simp [hsome]
  · rw [← hscope]
    change symbols.entries.map _ = _
    rw [hentries, List.map_map]
    refine List.map_congr_left fun e _ => ?_
    dsimp only [Function.comp]
    split <;> rfl

theorem staged_define {name : String} {y : Symbol} (h : Runs (define b name y) s u s')
    (hb : s.graph.Staged b σ Γ) : s'.graph.Staged b σ (Γ ++ [(name, y.type)]) := by
  obtain ⟨B, symbols, hB, hdefine, rfl⟩ := runs_define.1 h
  obtain ⟨B', hB', hopen, hhas, hscope⟩ := hb
  obtain rfl := Option.some.inj (hB.symm.trans hB')
  have hentries := SymbolTable.define_entries hdefine
  refine ⟨_, updateBlock_self hB _, hopen, hhas.withSymbols fun e he hsome => ⟨e, ?_, rfl, hsome⟩, ?_⟩
  · rw [hentries]
    exact List.mem_append_left _ he
  · rw [← hscope]
    change symbols.entries.map _ = _
    rw [hentries, List.map_append]
    rfl

theorem staged_stack {B : Block} {rs : List Register} (hB : s.graph.block? b = some B)
    (h : s.graph.Staged b (σ.deeper m) Γ) (hdepth : rs.length = σ.depth + n) :
    (s.updateBlock b (·.withLocals { B.locals with stack := rs })).graph.Staged b (σ.deeper n) Γ := by
  obtain ⟨B', hB', hopen, hhas, hscope⟩ := h
  obtain rfl := Option.some.inj (hB.symm.trans hB')
  exact ⟨_, updateBlock_self hB _, hopen, hhas.withStack rfl rfl hdepth, hscope⟩

theorem moulds_pushLast : Moulds (pushLast b) b m (fun _ => b) fun _ => m + 1 := by
  intro s u s' h σ Γ hb
  obtain ⟨B, r, hB, -, rfl⟩ := runs_pushLast.1 h
  apply staged_stack hB hb
  obtain ⟨B', hB', -, hhas, -⟩ := hb
  obtain rfl := Option.some.inj (hB.symm.trans hB')
  have hdepth : B.locals.stack.length = σ.depth + m := hhas.depth
  rw [List.length_append, hdepth]
  rfl

theorem moulds_popMany : Moulds (popMany b n) b (m + n) (fun _ => b) fun _ => m := by
  intro s rs s' h σ Γ hb
  rcases runs_popMany.1 h with ⟨rfl, -, rfl⟩ | ⟨-, B, rest, hB, hstack, hlen, rfl⟩
  · exact hb
  · apply staged_stack hB hb
    obtain ⟨B', hB', -, hhas, -⟩ := hb
    obtain rfl := Option.some.inj (hB.symm.trans hB')
    have hdepth : B.locals.stack.length = σ.depth + (m + n) := hhas.depth
    rw [hstack, List.length_append] at hdepth
    dsimp only
    omega

theorem moulds_pop : Moulds (pop b) b (m + 1) (fun _ => b) fun _ => m := by
  refine moulds_popMany.bind fun rs => ?_
  split
  · exact .pure rfl rfl
  · exact .throw

theorem delivers_emit {op : Operation} {t : ValueType} : Delivers (emit b op t) fun _ => b := by
  intro s r s' h
  obtain ⟨B, hB, -, -, -, rfl⟩ := runs_emit.1 h
  exact ⟨_, updateBlock_self hB _, by simp⟩

theorem delivers_emitRef : Delivers (emitRef b c) fun _ => b := by
  intro s r s' h
  obtain ⟨T, B, -, hB, -, -, rfl⟩ := runs_emitRef.1 h
  exact ⟨_, updateBlock_self hB _, by simp⟩

theorem delivers_copy : Delivers (copy b r) fun _ => b := by
  intro s r s' h
  obtain ⟨B, t, hB, -, -, -, rfl⟩ := runs_copy.1 h
  exact ⟨_, updateBlock_self hB _, by simp⟩

/-! New blocks. -/

theorem staged_newChild (h : Runs (newChild context preds) s c s')
    (hcontext : s.graph.Framed context σ Γ)
    (hpreds : ∀ p ∈ preds, s.graph.Shaped p (σ.deeper n)) : s'.graph.Staged c (σ.deeper n) Γ := by
  obtain ⟨i, hi, rfl, rfl⟩ := runs_newChild.1 h
  obtain ⟨C, hC, hhas, hscope⟩ := hcontext
  obtain ⟨C', hC', hsymbols, hslot⟩ := hi.context
  obtain rfl := Option.some.inj (hC.symm.trans hC')
  obtain ⟨p, P, hp, hP, hstack⟩ := hi.first
  have hpmem := List.mem_of_mem_head? hp
  have hheld : ∀ v ∈ (σ.deeper n).held, i.held v = true ∧ ∃ e ∈ i.symbols.entries, e.1 = v := by
    intro name hname
    constructor
    · rw [hi.held, Graph.allHold, List.all_eq_true]
      intro q hq
      obtain ⟨Q, hQ, hQhas⟩ := hpreds q hq
      simpa [hQ] using hQhas.held name hname
    · obtain ⟨e, he, heq, -⟩ := Locals.holds_iff.1 (hhas.held name hname)
      exact ⟨e, hsymbols ▸ he, heq⟩
  have hdepth : i.stack.length = (σ.deeper n).depth := by
    obtain ⟨P', hP', hPhas⟩ := hpreds p hpmem
    obtain rfl := Option.some.inj (hP.symm.trans hP')
    rw [← hPhas.depth]
    exact hstack.length_eq.symm
  refine ⟨_, by rw [addChild_block?, if_pos rfl], rfl, Inflow.block_has ?_ hheld hdepth _, ?_⟩
  · exact Block.HasSlot.unique hhas.slot hslot
  · rw [Inflow.block_scope, hsymbols]
    exact hscope

theorem framed_update {f : Block → Block} (hx : s.graph.Framed x σ Γ)
    (hf : ∀ X, (∀ r t, X.typeOf? r = some t → (f X).typeOf? r = some t) ∧ (f X).locals = X.locals) :
    (s.updateBlock b f).graph.Framed x σ Γ := by
  obtain ⟨X, hX, hhas, hscope⟩ := hx
  by_cases hxb : x = b
  · subst hxb
    obtain ⟨htypes, hlocals⟩ := hf X
    exact ⟨_, updateBlock_self hX _, hhas.mono htypes hlocals, by rwa [Block.scope, hlocals]⟩
  · exact ⟨X, (updateBlock_other _ hxb _).trans hX, hhas, hscope⟩

theorem framed_jump (h : Runs (jump b c) s u s') (hx : s.graph.Framed x σ Γ) :
    s'.graph.Framed x σ Γ := by
  obtain ⟨B, C, args, -, -, -, -, -, rfl⟩ := runs_jump.1 h
  exact framed_update hx fun X => ⟨fun _ _ => Block.typeOf?_push, rfl⟩

theorem framed_jumps {u : PUnit} (h : Runs (preds.forM (jump · c)) s u s')
    (hx : s.graph.Framed x σ Γ) : s'.graph.Framed x σ Γ := by
  induction preds generalizing s with
  | nil =>
    obtain rfl := Runs.forM_nil.1 h
    exact hx
  | cons p preds ih =>
    obtain ⟨t, hjump, hrest⟩ := Runs.forM_cons.1 h
    exact ih hrest (framed_jump hjump hx)

theorem framed_converge (h : Runs (converge context preds) s c s') (hx : s.graph.Framed x σ Γ) :
    s'.graph.Framed x σ Γ := by
  simp only [converge, Runs.bind_iff, Runs.pure_iff] at h
  obtain ⟨child, t, hnew, _, t', hjumps, -, rfl⟩ := h
  exact framed_jumps hjumps (hx.kept ((newChild_keeps hnew).1 x))

theorem framed_branchTo (h : Runs (branchTo b r c d) s u s') (hx : s.graph.Framed x σ Γ) :
    s'.graph.Framed x σ Γ := by
  obtain ⟨B, C, D, ts, fs, -, -, -, -, -, -, -, -, rfl⟩ := runs_branchTo.1 h
  exact framed_update hx fun X => ⟨fun _ _ h => Block.typeOf?_push (Block.typeOf?_push h), rfl⟩

/-! Where blocks come together or part. -/

theorem staged_converge (h : Runs (converge context preds) s c s')
    (hcontext : s.graph.Framed context σ Γ) (hpreds : ∀ p ∈ preds, s.graph.Shaped p (σ.deeper n)) :
    s'.graph.Staged c (σ.deeper n) Γ := by
  simp only [converge, Runs.bind_iff, Runs.pure_iff] at h
  obtain ⟨child, t, hnew, _, t', hjumps, rfl, rfl⟩ := h
  refine (staged_newChild hnew hcontext hpreds).kept fun C => (moves_jumps hjumps).1.keeps c C ?_
  intro hmem
  obtain ⟨B, hB, -⟩ := hpreds c hmem
  simp [(newChild_keeps hnew).2] at hB

theorem staged_enter (h : Runs (enter b) s c s') (hb : s.graph.Staged b σ Γ) :
    s'.graph.Staged c σ Γ ∧ s'.graph.Framed b σ Γ ∧ b ≠ c := by
  rw [enter_eq] at h
  refine ⟨staged_converge (n := 0) h hb.framed (by simpa using hb.framed.shaped),
    framed_converge h hb.framed, ?_⟩
  rintro rfl
  simp only [converge, Runs.bind_iff, Runs.pure_iff] at h
  obtain ⟨_, t, hnew, _, _, -, rfl, -⟩ := h
  obtain ⟨B, hB, -⟩ := hb
  simp [(newChild_keeps hnew).2] at hB

theorem staged_branch (h : Runs (branch b r) s (c, d) s') (hb : s.graph.Staged b σ Γ) :
    s'.graph.Staged c σ Γ ∧ s'.graph.Staged d σ Γ ∧ s'.graph.Framed b σ Γ ∧ [b, c, d].Nodup := by
  simp only [branch, Runs.bind_iff, Runs.pure_iff, Prod.mk.injEq] at h
  obtain ⟨_, t, hc, _, t', hd, _, _, hbranch, ⟨rfl, rfl⟩, rfl⟩ := h
  obtain ⟨hkeeps, hnew⟩ := newChild_keeps hc
  obtain ⟨hkeeps', hnew'⟩ := newChild_keeps hd
  have hb₁ := hb.kept (hkeeps b)
  have hcs := staged_newChild (n := 0) hc hb.framed (by simpa using hb.framed.shaped)
  have hds := staged_newChild (n := 0) hd hb₁.framed (by simpa using hb₁.framed.shaped)
  have hcb : c ≠ b := by
    rintro rfl
    obtain ⟨B, hB, -⟩ := hb
    simp [hB] at hnew
  have hdb : d ≠ b := by
    rintro rfl
    obtain ⟨B, hB, -⟩ := hb₁
    simp [hB] at hnew'
  have hdc : d ≠ c := by
    rintro rfl
    obtain ⟨C, hC, -⟩ := hcs
    simp [hC] at hnew'
  refine ⟨?_, ?_, framed_branchTo hbranch (hb₁.kept (hkeeps' b)).framed, ?_⟩
  · exact (hcs.kept (hkeeps' c)).kept fun C hC => (branchTo_keeps hbranch hcb).trans hC
  · exact hds.kept fun D hD => (branchTo_keeps hbranch hdb).trans hD
  · simp [hcb.symm, hdb.symm, hdc.symm]

theorem staged_convergeBranch (h : Runs (convergeBranch context preds b r) s (c, d) s')
    (hcontext : s.graph.Framed context σ Γ) (hb : s.graph.Shaped b σ)
    (hpreds : ∀ p ∈ preds, s.graph.Shaped p σ) : s'.graph.Staged d σ Γ ∧ d ≠ c := by
  simp only [convergeBranch, Runs.bind_iff, Runs.pure_iff, Prod.mk.injEq] at h
  obtain ⟨_, t, hc, _, t', hd, _, t'', hjumps, _, _, hbranch, ⟨rfl, rfl⟩, rfl⟩ := h
  obtain ⟨hkeeps, hnew⟩ := newChild_keeps hc
  obtain ⟨hkeeps', hnew'⟩ := newChild_keeps hd
  have hall : ∀ p ∈ b :: preds, t.graph.Shaped p σ := by
    simpa using ⟨hb.kept (hkeeps b), fun p hp => (hpreds p hp).kept (hkeeps p)⟩
  have hds := staged_newChild (n := 0) hd (hcontext.kept (hkeeps context)) (by simpa using hall)
  have hdnew : d ∉ b :: preds := by
    intro hmem
    obtain ⟨X, hX, -⟩ := hall d hmem
    simp [hX] at hnew'
  constructor
  · refine hds.kept fun D hD => ?_
    rw [branchTo_keeps hbranch (List.ne_of_not_mem_cons hdnew)]
    exact (moves_jumps hjumps).1.keeps d D (List.not_mem_of_not_mem_cons hdnew) hD
  · rintro rfl
    obtain ⟨i, -, rfl, rfl⟩ := runs_newChild.1 hc
    simp [addChild_block?] at hnew'

end Builder

namespace Lowering

open Builder

variable {α : Type} {t : ValueType}

abbrev Delivers {α : Type} (x : LowerM α) (c : α → BlockId) : Prop :=
  BlockGraph.Delivers (fun s : State => s.graph) x c

abbrev Moulds {α : Type} (x : LowerM α) (b : BlockId) (m : Nat) (c : α → BlockId) (n : α → Nat) :
    Prop :=
  BlockGraph.Moulds (fun s : State => s.graph) x b m c n

variable {b c : BlockId} {r : Register} {m n : Nat} {place : Place}

theorem moulds_lift {x : BuildM α} {d : α → BlockId} {k : α → Nat} (h : Builder.Moulds x b m d k) :
    Moulds (liftM x : LowerM α) b m d k := by
  intro s a s' hrun σ Γ hb
  obtain ⟨t, ht, rfl⟩ := Runs.lift_build_iff.1 hrun
  exact h ht σ Γ hb

theorem moulds_settles {x : LowerM α} (h : Settles x) : Moulds x b m (fun _ => b) fun _ => m := by
  intro s a s' hrun σ Γ hb
  exact hb.kept fun _ => (h hrun).keeps (by simp)

theorem moulds_lowerType (t : SourceType) : Moulds (lowerType t) b m (fun _ => b) fun _ => m :=
  moulds_settles (settles_lowerType t)

theorem moulds_except {x : Except Fault α} :
    Moulds (liftM x : LowerM α) b m (fun _ => b) fun _ => m :=
  .look fun _ _ _ h => (Runs.lift_except_lower_iff.1 h).2

/-! Places. -/

theorem moulds_readSymbol {name : String} :
    Builder.Moulds (readSymbol b name) b m (fun _ => b) fun _ => m :=
  .look fun _ _ _ h => readSymbol_state h

theorem moulds_expectObject : Builder.Moulds (expectObject b r) b m (fun _ => b) fun _ => m :=
  .look fun _ _ _ h => expectObject_state h

theorem moulds_lastRegister : Builder.Moulds (lastRegister b) b m (fun _ => b) fun _ => m :=
  .look (by simp)

theorem moulds_peek {k : Nat} : Builder.Moulds (peek b k) b m (fun _ => b) fun _ => m :=
  .look (by simp)

theorem moulds_load : Builder.Moulds (load b place t) b m (fun _ => b) fun _ => m := by
  cases place with
  | var name => exact moulds_readSymbol.bind fun _ => moulds_copy.bind fun _ => .pure rfl rfl
  | field index => exact moulds_peek.bind fun _ => moulds_emit.bind fun _ => .pure rfl rfl
  | element =>
    exact moulds_peek.bind fun _ => moulds_peek.bind fun _ => moulds_emit.bind fun _ => .pure rfl rfl

theorem moulds_store :
    Builder.Moulds (store b place r) b (m + place.depth) (fun _ => b) fun _ => m := by
  cases place with
  | var name => exact moulds_rebind
  | field index => exact moulds_pop.bind fun _ => moulds_emit.bind fun _ => .pure rfl rfl
  | element =>
    refine moulds_popMany.bind fun rs => ?_
    split
    · exact moulds_emit.bind fun _ => .pure rfl rfl
    · exact .throw

theorem moulds_emitOne : Builder.Moulds (emitOne b t) b m (fun _ => b) fun _ => m := by
  refine moulds_emit.bind fun _ => Moulds.except.bind fun op => ?_
  cases op with
  | none => exact .pure rfl rfl
  | some op => exact moulds_emit.bind fun _ => .pure rfl rfl

theorem moulds_update {op : BinaryOp} {old : Bool} :
    Builder.Moulds (update b place op t old) b (m + place.depth + 2) (fun _ => b) fun _ => m := by
  refine moulds_popMany.bind fun rs => ?_
  split
  · exact Moulds.except.bind fun _ => moulds_emit.bind fun _ => moulds_store.bind fun _ =>
      moulds_copy.bind fun _ => .pure rfl rfl
  · exact .throw

theorem moulds_storeFields {k : Nat} {rs : List Register} :
    Builder.Moulds (storeFields b r k rs) b m (fun _ => b) fun _ => m := by
  induction rs generalizing k with
  | nil => exact .pure rfl rfl
  | cons v vs ih => exact moulds_emit.bind fun _ => ih

theorem moulds_construct {l : LayoutId} :
    Builder.Moulds (construct b l n) b (m + n) (fun _ => b) fun _ => m :=
  moulds_popMany.bind fun _ => moulds_emit.bind fun _ => moulds_storeFields.bind fun _ =>
    moulds_copy.bind fun _ => .pure rfl rfl

theorem moulds_applyLinear (op : LinearOp) {t : SourceType} :
    Moulds (applyLinear b op t) b (m + op.arity) (fun _ => b) fun _ => m :=
  (moulds_lift moulds_popMany).bind fun _ => (moulds_lowerType t).bind fun _ =>
    moulds_except.bind fun _ => (moulds_lift moulds_emit).bind fun _ => .pure rfl rfl

theorem moulds_lowerCall {t : SourceType} : Moulds (lowerCall b n t) b (m + 1 + n) id fun _ => m := by
  intro s c s' hrun σ Γ hb
  obtain ⟨k, p, t, hbegins, rfl, hp, hsus, -⟩ := runs_lowerCall hrun
  obtain ⟨B, rest, hB, hstack, hcaller⟩ := hbegins.block
  obtain ⟨B', hB', hopen, hhas, hscope⟩ := hb
  obtain rfl := Option.some.inj (hB.symm.trans hB')
  have hdepth : B.locals.stack.length = σ.depth + (m + 1 + n) := hhas.depth
  have hcount := hbegins.count
  have hcallerHas : k.caller.Has (σ.deeper m) := by
    rw [hcaller]
    refine hhas.withStack rfl rfl ?_
    simp only [hstack, List.length_append, List.length_cons] at hdepth
    simp only [Shape.deeper]
    omega
  refine ⟨_, hsus.resumed, rfl, hp.has hcallerHas, ?_⟩
  rw [← hscope]
  have hsymbols := scope_congr (hp.retypes.symbols.imp fun _ _ h => ⟨h.1, h.2.1⟩)
  rw [hcaller] at hsymbols
  exact hsymbols

theorem moulds_constructed {k : ClassId} : Moulds (constructed k n) b m (fun _ => b) fun _ => m :=
  .look fun _ _ _ h => (constructed_inv h).2

/-! Expressions. -/

theorem staged_choose {onTrue onFalse first second merged : BlockId} {s s₁ s₂ : State} {t u : Builder}
    {σ : Shape} {Γ : List (String × ValueType)} (hb : s.graph.Staged b σ Γ)
    (hbranch : Runs (branch b r) s.toBuilder (onTrue, onFalse) t)
    (hfirst : Rebuilds [onTrue] { s with toBuilder := t } [first] s₁)
    (hsecond : Rebuilds [onFalse] s₁ [second] s₂)
    (harm : t.graph.Staged onTrue σ Γ → s₁.graph.Staged first (σ.deeper 1) Γ)
    (harm' : s₁.graph.Staged onFalse σ Γ → s₂.graph.Staged second (σ.deeper 1) Γ)
    (hmerge : Runs (converge b [first, second]) s₂.toBuilder merged u) :
    u.graph.Staged merged (σ.deeper 1) Γ := by
  obtain ⟨htrue, hfalse, hframe, hnodup⟩ := staged_branch hbranch hb
  simp only [List.nodup_cons, List.mem_cons, List.not_mem_nil, or_false, not_or] at hnodup
  have hFalseTrue : onFalse ∉ [onTrue] := by simpa [eq_comm] using hnodup.2.1
  -- an arm touches neither the other one nor the block before both
  have hfirst' : first ∉ [onFalse] := by
    obtain ⟨F, hF, -⟩ := hfalse
    simpa [eq_comm] using hfirst.apart hFalseTrue hF
  have hframe₁ := hframe.kept fun _ => hfirst.keeps (by simpa using hnodup.1.1)
  have hframe₂ := hframe₁.kept fun _ => hsecond.keeps (by simpa using hnodup.1.2)
  have hdone := (harm htrue).kept fun _ => hsecond.keeps hfirst'
  have hdone' := harm' (hfalse.kept fun _ => hfirst.keeps hFalseTrue)
  exact staged_converge hmerge hframe₂ (by simpa using ⟨hdone.framed.shaped, hdone'.framed.shaped⟩)

mutual

theorem moulds_lowerExpr (b : BlockId) (m : Nat) : (e : Expr) → Moulds (lowerExpr b e) b m id fun _ => m
  | .literal value type => by
    rw [lowerExpr]
    exact (moulds_lowerType type).bind fun _ => (moulds_lift moulds_emit).bind fun _ => .pure rfl rfl
  | .var name type => by
    rw [lowerExpr]
    exact (moulds_lift moulds_readSymbol).bind fun _ => (moulds_lift moulds_copy).bind fun _ =>
      .pure rfl rfl
  | .function f type => by
    rw [lowerExpr]
    exact (moulds_settles settles_functionEntry).bind fun _ =>
      (moulds_lift moulds_emitRef).bind fun _ => .pure rfl rfl
  | .unary op operand type => by
    rw [lowerExpr]
    exact (moulds_lowerExpr b m operand).bind fun _ => (moulds_lift moulds_pushLast).bind fun _ =>
      (moulds_applyLinear (.unary op)).bind fun _ => .pure rfl rfl
  | .binary op left right type => by
    rw [lowerExpr]
    exact (moulds_lowerExpr b m left).bind fun c => (moulds_lift moulds_pushLast).bind fun _ =>
      (moulds_lowerExpr c (m + 1) right).bind fun _ => (moulds_lift moulds_pushLast).bind fun _ =>
      (moulds_applyLinear (.binary op)).bind fun _ => .pure rfl rfl
  | .logic op left right type => by
    rw [lowerExpr]
    exact .throw
  | .cast op operand type => by
    rw [lowerExpr]
    exact moulds_except.bind fun _ => (moulds_lowerExpr b m operand).bind fun _ =>
      (moulds_lift moulds_lastRegister).bind fun _ => (moulds_lowerType type).bind fun _ =>
      (moulds_lift moulds_emit).bind fun _ => .pure rfl rfl
  | .field object index type => by
    rw [lowerExpr]
    exact (moulds_lowerExpr b m object).bind fun _ => (moulds_lift moulds_lastRegister).bind fun _ =>
      (moulds_lift moulds_expectObject).bind fun _ => (moulds_lowerType type).bind fun _ =>
      (moulds_lift moulds_emit).bind fun _ => .pure rfl rfl
  | .assign target value type => by
    rw [lowerExpr]
    refine (moulds_lowerAddress b m target).bind fun (c, place) =>
      (moulds_lowerExpr c (m + place.depth) value).bind fun d =>
      (moulds_lift moulds_lastRegister).bind fun r => (moulds_lift moulds_store).bind fun _ => ?_
    cases place with
    | var name => exact .pure rfl rfl
    | field index => exact (moulds_lift moulds_copy).bind fun _ => .pure rfl rfl
    | element => exact (moulds_lift moulds_copy).bind fun _ => .pure rfl rfl
  | .compound op target value type => by
    rw [lowerExpr]
    exact (moulds_lowerType type).bind fun _ => (moulds_lowerAddress b m target).bind fun (c, place) =>
      (moulds_lift moulds_load).bind fun _ => (moulds_lift moulds_pushLast).bind fun _ =>
      (moulds_lowerExpr c (m + place.depth + 1) value).bind fun _ =>
      (moulds_lift moulds_pushLast).bind fun _ => (moulds_lift moulds_update).bind fun _ => .pure rfl rfl
  | .step op target type => by
    rw [lowerExpr]
    exact (moulds_lowerType type).bind fun _ => (moulds_lowerAddress b m target).bind fun (c, place) =>
      (moulds_lift moulds_load).bind fun _ => (moulds_lift moulds_pushLast).bind fun _ =>
      (moulds_lift moulds_emitOne).bind fun _ => (moulds_lift moulds_pushLast).bind fun _ =>
      (moulds_lift moulds_update).bind fun _ => .pure rfl rfl
  | .conditional condition first second type => by
    rw [lowerExpr]
    refine (moulds_lowerExpr b m condition).bind fun c => ?_
    intro s merged s' h σ Γ hc
    simp only [Runs.bind_iff, Runs.lift_build_iff] at h
    obtain ⟨r, _, ⟨t, hlast, rfl⟩, ⟨onTrue, onFalse⟩, _, ⟨t₁, hbranch, rfl⟩, h⟩ := h
    obtain ⟨-, -, -, rfl⟩ := runs_lastRegister.1 hlast
    simp only [Runs.pure_iff] at h
    obtain ⟨first', s₂, hfirst, _, _, ⟨t₃, hpush, rfl⟩, second', s₄, hsecond, _, _,
      ⟨t₅, hpush', rfl⟩, _, _, ⟨t₆, hmerge, rfl⟩, _, _, ⟨t₇, hpop, rfl⟩, _, _, ⟨t₈, hcopy, rfl⟩,
      rfl, rfl⟩ := h
    dsimp only at hfirst hpush hpush' hmerge hpop hcopy
    have hmerged := staged_choose hc hbranch
      ((leads_lowerExpr onTrue first hfirst).trans (.of_moves (stays_pushLast hpush).toMoves))
      ((leads_lowerExpr onFalse second hsecond).trans (.of_moves (stays_pushLast hpush').toMoves))
      (fun htrue => moulds_pushLast hpush (σ.deeper m) Γ (moulds_lowerExpr onTrue 0 first hfirst _ Γ htrue))
      (fun hfalse => moulds_pushLast hpush' (σ.deeper m) Γ
        (moulds_lowerExpr onFalse 0 second hsecond _ Γ hfalse)) hmerge
    exact moulds_copy hcopy σ Γ (moulds_pop hpop σ Γ hmerged)
  | .call callee arguments type => by
    rw [lowerExpr]
    exact (moulds_lowerExpr b m callee).bind fun c => (moulds_lift moulds_pushLast).bind fun _ =>
      (moulds_lowerOperands c (m + 1) arguments).bind fun _ => moulds_lowerCall
  | .new k arguments type => by
    rw [lowerExpr]
    exact moulds_constructed.bind fun _ => (moulds_lowerOperands b m arguments).bind fun _ =>
      (moulds_lift moulds_construct).bind fun _ => .pure rfl rfl
  | .newArray length type => by
    rw [lowerExpr]
    exact (moulds_lowerExpr b m length).bind fun _ => (moulds_lift moulds_lastRegister).bind fun _ =>
      (moulds_lowerType type).bind fun _ => (moulds_lift moulds_emit).bind fun _ => .pure rfl rfl
  | .native name arguments type => by
    rw [lowerExpr]
    exact (moulds_lowerOperands b m arguments).bind fun _ => (moulds_lift moulds_popMany).bind fun _ =>
      (moulds_lowerType type).bind fun _ => (moulds_lift moulds_emit).bind fun _ => .pure rfl rfl

theorem moulds_lowerOperands (b : BlockId) (m : Nat) : (es : List Expr) →
    Moulds (lowerOperands b es) b m id fun _ => m + es.length
  | [] => by
    rw [lowerOperands]
    exact .pure rfl rfl
  | e :: es => by
    rw [lowerOperands]
    refine (moulds_lowerExpr b m e).bind fun c => (moulds_lift moulds_pushLast).bind fun _ => ?_
    have hrest := moulds_lowerOperands c (m + 1) es
    rwa [Nat.add_assoc, Nat.add_comm 1] at hrest

theorem moulds_lowerAddress (b : BlockId) (m : Nat) : (e : Expr) →
    Moulds (lowerAddress b e) b m Prod.fst fun p => m + p.2.depth
  | .var name type => by
    rw [lowerAddress]
    exact .pure rfl rfl
  | .field object index type => by
    rw [lowerAddress]
    exact (moulds_lowerExpr b m object).bind fun _ => (moulds_lift moulds_lastRegister).bind fun _ =>
      (moulds_lift moulds_expectObject).bind fun _ => (moulds_lift moulds_pushLast).bind fun _ =>
      .pure rfl rfl
  | .binary .index array index type => by
    rw [lowerAddress]
    exact (moulds_lowerExpr b m array).bind fun c => (moulds_lift moulds_pushLast).bind fun _ =>
      (moulds_lowerExpr c (m + 1) index).bind fun _ => (moulds_lift moulds_pushLast).bind fun _ =>
      .pure rfl rfl
  | .literal .. | .function .. | .unary .. | .logic .. | .cast .. | .assign .. | .compound ..
  | .step .. | .conditional .. | .call .. | .new .. | .newArray .. | .native ..
  | .binary (.compare _) .. | .binary (.numeric _) .. | .binary (.shift _) .. | .binary .concat ..
  | .binary .identity .. => by
    simp only [lowerAddress]
    exact .throw

end

theorem delivers_lift {x : BuildM α} {d : α → BlockId} (h : Builder.Delivers x d) :
    Delivers (liftM x : LowerM α) d := by
  intro s a s' hrun
  obtain ⟨t, ht, rfl⟩ := Runs.lift_build_iff.1 hrun
  exact h ht

theorem delivers_update {op : BinaryOp} {old : Bool} :
    Builder.Delivers (update b place op t old) fun _ => b := by
  refine .last fun rs => ?_
  split
  · exact .last fun _ => .last fun _ => .last fun _ => .yields delivers_copy rfl
  · exact .throw

theorem delivers_construct {l : LayoutId} : Builder.Delivers (construct b l n) fun _ => b :=
  .last fun _ => .last fun _ => .last fun _ => .yields delivers_copy rfl

theorem delivers_applyLinear {op : LinearOp} {t : SourceType} :
    Delivers (applyLinear b op t) fun _ => b :=
  .last fun _ => .last fun _ => .last fun _ => .yields (delivers_lift delivers_emit) rfl

theorem delivers_lowerCall {t : SourceType} : Delivers (lowerCall b n t) id := by
  intro s c s' hrun
  obtain ⟨k, p, t, -, rfl, -, hsus, -⟩ := runs_lowerCall hrun
  refine ⟨_, hsus.resumed, ?_⟩
  have hfirst : (k.resumed t.graph.nextId p).contains ⟨0⟩ = true :=
    Block.contains_of_typeOf? (t := .object k.returns) (Block.typeOf?_of_parameterTypes (by
      change (k.bare t.graph.nextId).parameterTypes[0]? = _
      rw [bare_parameterTypes]
      rfl))
  exact Block.contains_iff.1 hfirst

theorem delivers_assigned : Delivers (do
    let r ← lastRegister b
    store b place r
    match place with
    | .var _ => return b
    | _ =>
      let _ ← copy b r
      return b) id := by
  cases place with
  | var name =>
    intro s c s' h
    simp only [Runs.bind_iff, Runs.lift_build_iff, Runs.pure_iff] at h
    obtain ⟨r, _, ⟨t, hlast, rfl⟩, _, _, ⟨t', hstore, rfl⟩, rfl, rfl⟩ := h
    obtain ⟨B, hB, hr, rfl⟩ := runs_lastRegister.1 hlast
    obtain ⟨B', hB', hext⟩ := (stays_store hstore).graph_extends _ B hB
    have hr' := Block.contains_iff.1 (hext.contains (Block.contains_of_lastRegister? hr))
    exact ⟨B', hB', by omega⟩
  | field index => exact .last fun _ => .last fun _ => .yields (delivers_lift delivers_copy) rfl
  | element => exact .last fun _ => .last fun _ => .yields (delivers_lift delivers_copy) rfl

theorem delivers_lowerExpr (b : BlockId) (e : Expr) : Delivers (lowerExpr b e) id := by
  cases e <;> rw [lowerExpr]
  case literal => exact .last fun _ => .yields (delivers_lift delivers_emit) rfl
  case var => exact .last fun _ => .yields (delivers_lift delivers_copy) rfl
  case function => exact .last fun _ => .yields (delivers_lift delivers_emitRef) rfl
  case unary => exact .last fun _ => .last fun _ => .yields delivers_applyLinear rfl
  case binary =>
    exact .last fun _ => .last fun _ => .last fun _ => .last fun _ => .yields delivers_applyLinear rfl
  case logic => exact .throw
  case cast =>
    exact .last fun _ => .last fun _ => .last fun _ => .last fun _ =>
      .yields (delivers_lift delivers_emit) rfl
  case field =>
    exact .last fun _ => .last fun _ => .last fun _ => .last fun _ =>
      .yields (delivers_lift delivers_emit) rfl
  case assign => exact .last fun _ => .last fun _ => delivers_assigned
  case compound =>
    exact .last fun _ => .last fun _ => .last fun _ => .last fun _ => .last fun _ => .last fun _ =>
      .yields (delivers_lift delivers_update) rfl
  case step =>
    exact .last fun _ => .last fun _ => .last fun _ => .last fun _ => .last fun _ => .last fun _ =>
      .yields (delivers_lift delivers_update) rfl
  case conditional =>
    exact .last fun _ => .last fun _ => .last fun _ => .last fun _ => .last fun _ => .last fun _ =>
      .last fun _ => .last fun _ => .last fun _ => .yields (delivers_lift delivers_copy) rfl
  case call => exact .last fun _ => .last fun _ => .last fun _ => delivers_lowerCall
  case new => exact .last fun _ => .last fun _ => .yields (delivers_lift delivers_construct) rfl
  case newArray =>
    exact .last fun _ => .last fun _ => .last fun _ => .yields (delivers_lift delivers_emit) rfl
  case native =>
    exact .last fun _ => .last fun _ => .last fun _ => .yields (delivers_lift delivers_emit) rfl

end Lowering

end BlockGraph

import BlockGraph.Proofs.Linearity.Actions

namespace BlockGraph.Lowering

open Builder

def Enters (g : Graph) (c : BlockId) : Prop :=
  g.IsTarget c ∧ ∀ C, g.block? c = some C → g.Proper (.blockRef C.parameterTypes)

theorem Enters.mono {g g' : Graph} {c : BlockId} (h : Enters g c) (hg : g.Preserves g') :
    Enters g' c := by
  refine ⟨h.1.mono hg, fun C' hC' => ?_⟩
  obtain ⟨C, hC, -⟩ := h.1
  obtain ⟨C'', hC'', hext, -⟩ := hg.blocks c C hC
  obtain rfl := Option.some.inj (hC''.symm.trans hC')
  rw [hext.parameterTypes]
  exact (h.2 C hC).mono hg

def IsClass (g : Graph) (l : LayoutId) : Prop :=
  ∃ L, g.layout? l = some L ∧ ∃ name, L.origin = .ofClass name

theorem IsClass.mono {g g' : Graph} {l : LayoutId} (h : IsClass g l) (hg : g.Preserves g') :
    IsClass g' l := by
  obtain ⟨L, hL, name, horigin⟩ := h
  obtain ⟨L', hL', horigin'⟩ := hg.origins l L hL
  exact ⟨L', hL', name, horigin'.trans horigin⟩

structure State.Tidy (s : State) : Prop where
  builder : s.toBuilder.Tidy
  classes : ∀ (k : Nat) l, s.classes[k]? = some l → IsClass s.graph l
  functions : ∀ (k : Nat) e, s.functions[k]? = some e → Enters s.graph e.entry
  loops : ∀ f ∈ s.loops, ∀ test exit, f.targets = .known test exit →
    s.graph.IsTarget test ∧ s.graph.IsTarget exit

abbrev Tidies {α : Type} (x : LowerM α) (s : State) (Q : α → State → Prop) : Prop :=
  BlockGraph.Tidies (fun _ => True) State.Tidy (·.graph) x s Q

variable {s : State} {b c : BlockId} {r : Register}

theorem State.Tidy.withBuilder (h : s.Tidy) {t : Builder} (ht : t.Tidy)
    (hg : s.graph.Preserves t.graph) : State.Tidy { s with toBuilder := t } where
  builder := ht
  classes k l hl := (h.classes k l hl).mono hg
  functions k e he := (h.functions k e he).mono hg
  loops f hf test exit heq := by
    obtain ⟨htest, hexit⟩ := h.loops f hf test exit heq
    exact ⟨htest.mono hg, hexit.mono hg⟩

theorem tidies_lift {α : Type} {E : Fault → Prop} {x : BuildM α} {Q : α → Builder → Prop}
    (hx : BlockGraph.Tidies E Builder.Tidy (·.graph) x s.toBuilder Q) :
    BlockGraph.Tidies E State.Tidy (·.graph) (liftM x : LowerM α) s fun a s' => Q a s'.toBuilder := by
  intro hs
  refine (hx hs.builder).lift_build ?_
  rintro a t - ⟨ht, hpres, hQ⟩
  exact ⟨hs.withBuilder ht hpres, hpres, hQ⟩

theorem tidies_except {α : Type} {x : Except Fault α} {Q : α → Prop} (hx : ∀ a, x = .ok a → Q a) :
    Tidies (liftM x : LowerM α) s fun a _ => Q a := by
  refine .look fun a s' _ hrun => ?_
  obtain ⟨ha, rfl⟩ := Runs.lift_except_lower_iff.1 hrun
  exact ⟨rfl, hx a ha⟩

theorem lowered?_proper (hs : s.Tidy) {t : SourceType} {v : ValueType} (h : lowered? s t = some v) :
    s.graph.Proper v := by
  rintro l ts rfl
  cases t with
  | prim p => simp [lowered?] at h
  | object k => simp [lowered?] at h
  | array element => simp [lowered?] at h
  | function result parameters =>
    simp only [lowered?, Option.bind_eq_some_iff, Option.map_eq_some_iff] at h
    obtain ⟨rt, -, l', hl', ps, -, heq⟩ := h
    obtain ⟨rfl, -⟩ : l' = l ∧ ps = ts := by simpa using heq
    exact hs.builder.returns rt l' hl'

theorem tidies_lowerType (t : SourceType) :
    Tidies (lowerType t) s fun v s' => s'.graph.Proper v := by
  refine fun hs => .of_runs fun v s' hrun => ?_
  have hkeeps := lowerType_closure
    (P := fun s s' => s.Tidy → s'.Tidy ∧ s.graph.Preserves s'.graph) (fun s hs => ⟨hs, .refl _⟩)
    (fun h k hs => ⟨(k (h hs).1).1, (h hs).2.trans (k (h hs).1).2⟩)
    (fun {s result l u} hl hs => ?_) t v hrun hs
  · exact ⟨hkeeps.1, hkeeps.2, lowered?_proper hkeeps.1 (lowered?_of_runs t v hrun)⟩
  · obtain ⟨htidy, hpres, -⟩ := (tidies_returnLayout hs.builder).holds hl
    exact ⟨hs.withBuilder htidy hpres, hpres⟩

theorem tidies_lowerTypes (ts : List SourceType) :
    Tidies (lowerTypes ts) s fun vs s' => ∀ v ∈ vs, s'.graph.Proper v := by
  induction ts generalizing s with
  | nil => rw [lowerTypes]; exact .pure nofun
  | cons t ts ih =>
    rw [lowerTypes]
    refine (tidies_lowerType t).bind fun v s₁ _ hv => ih.bind fun vs s₂ hpres hvs => .pure ?_
    simpa using ⟨hv.mono hpres, hvs⟩

theorem tidies_classLayout {k : ClassId} : Tidies (classLayout k) s fun l s' => IsClass s'.graph l := by
  refine .look fun l s' hs hrun => ?_
  obtain ⟨hl, rfl⟩ := runs_classLayout.1 hrun
  exact ⟨rfl, hs.classes _ _ hl⟩

theorem tidies_functionEntry {f : FunctionId} :
    Tidies (functionEntry f) s fun e s' => Enters s'.graph e.entry := by
  refine .look fun e s' hs hrun => ?_
  obtain ⟨he, rfl⟩ := runs_functionEntry.1 hrun
  exact ⟨rfl, hs.functions _ _ he⟩

theorem tidies_lowerCall {n : Nat} {t : SourceType} :
    Tidies (lowerCall b n t) s fun c s' => s'.graph.IsOpen c := by
  refine fun hs => .of_runs fun c s' hrun => ?_
  obtain ⟨k, p, t, hbegins, rfl, hp, hsus, hs'⟩ := runs_lowerCall hrun
  obtain ⟨B, rest, hB, hstack, hcaller⟩ := hbegins.block
  obtain ⟨ts, hcallee⟩ := hbegins.callee
  have hlive := (hs.builder.blocks b B hB).live
  have hpopped := hs.builder.relocate hB (l := k.caller.locals) (by rw [hcaller]; rfl)
    (fun r hr => by
      rw [hcaller, Block.withLocals_locals, Locals.mem_liveRegisters] at hr
      rw [Locals.mem_liveRegisters, hstack]
      exact .inl (hr.imp_right (.imp_right fun hr => List.mem_append_left _ hr)))
    (by rw [hcaller]; exact (hs.builder.blocks b B hB).symbols)
  obtain ⟨htidy, hpres, hproper⟩ :=
    (tidies_lowerType _ (hs.withBuilder hpopped.tidy hpopped.preserves)).holds hbegins.result
  have hB' : t.graph.block? b = some k.caller := by
    rw [Graph.block?, lowerType_blocks hbegins.result, hcaller]
    exact updateBlock_self hB _
  have hkeeps := hsus.keeps htidy.builder hB' hcallee (fun r hr => by
    obtain ⟨type, htype, -⟩ := hlive r (Locals.mem_liveRegisters.2 (.inr (.inr (by
      rw [hstack]
      simp [hr]))))
    rw [hcaller]
    exact Block.lt_of_typeOf? htype) hproper hp
  have hall := hpopped.preserves.trans (hpres.trans hkeeps.preserves)
  refine ⟨?_, hall, _, hsus.resumed, rfl⟩
  rw [hs']
  exact htidy.withBuilder hkeeps.tidy hkeeps.preserves

section Places

variable {s : Builder} {t : ValueType} {place : Place}

theorem tidies_readSymbol {name : String} :
    Builder.Tidies (readSymbol b name) s fun _ _ => True :=
  .look fun _ _ _ hrun => ⟨readSymbol_state hrun, trivial⟩

theorem tidies_expectObject (hopen : s.graph.IsOpen b) :
    Builder.Tidies (expectObject b r) s fun _ s' => s'.graph.IsOpen b :=
  .look fun _ _ _ hrun => ⟨expectObject_state hrun, hopen⟩

theorem tidies_peek {n : Nat} : Builder.Tidies (peek b n) s fun _ s' => s' = s := by
  refine .look fun r s' _ hrun => ?_
  obtain ⟨-, -, -, rfl⟩ := runs_peek.1 hrun
  exact ⟨rfl, rfl⟩

theorem tidies_load (ht : s.graph.Proper t) :
    Builder.Tidies (load b place t) s fun _ s' => s'.graph.IsOpen b := by
  cases place with
  | var name =>
    exact tidies_readSymbol.bind fun _ _ _ _ => tidies_copy.bind fun _ _ _ h => .pure h.1
  | field index =>
    refine tidies_peek.bind fun object s₁ _ hs₁ => ?_
    obtain rfl := hs₁
    exact (tidies_emit (.of_inert rfl) ht).bind fun _ _ _ h => .pure h.1
  | element =>
    refine tidies_peek.bind fun array s₁ _ hs₁ => ?_
    obtain rfl := hs₁
    refine tidies_peek.bind fun index s₂ _ hs₂ => ?_
    obtain rfl := hs₂
    exact (tidies_emit (.of_inert rfl) ht).bind fun _ _ _ h => .pure h.1

theorem proper_prim {g : Graph} (p : Primitive) : g.Proper (.prim p) := nofun

theorem tidies_store (hopen : s.graph.IsOpen b) (hr : s.graph.Typed b r) :
    Builder.Tidies (store b place r) s fun _ s' => s'.graph.IsOpen b := by
  cases place with
  | var name => exact tidies_rebind hopen hr
  | field index =>
    exact tidies_pop.bind fun _ _ _ _ =>
      (tidies_emit (.of_inert rfl) (proper_prim _)).bind fun _ _ _ h => .pure h.1
  | element =>
    refine tidies_popMany.bind fun rs s₁ _ _ => ?_
    split
    · exact (tidies_emit (.of_inert rfl) (proper_prim _)).bind fun _ _ _ h => .pure h.1
    · exact .throw trivial

theorem oneCast_isInert {op : CastOp} (h : oneCast t = .ok (some op)) :
    (Operation.cast op r).isInert = true := by
  unfold oneCast at h
  split at h <;> simp at h <;> subst h <;> rfl

theorem tidies_emitOne (ht : s.graph.Proper t) :
    Builder.Tidies (emitOne b t) s fun _ s' => s'.graph.IsOpen b := by
  refine (tidies_emit (.of_inert rfl) (proper_prim _)).bind fun one s₁ hpres h₁ => ?_
  refine BlockGraph.Tidies.bind (P := fun op s' => s' = s₁ ∧ oneCast t = .ok op)
    (.look fun op s' _ hrun => ?_) fun op s' _ ⟨hs', hop⟩ => ?_
  · obtain ⟨hop, rfl⟩ := Runs.lift_except_iff.1 hrun
    exact ⟨rfl, rfl, hop⟩
  · obtain rfl := hs'
    cases op with
    | none => exact .pure h₁.1
    | some op =>
      exact (tidies_emit (.of_inert (oneCast_isInert hop)) (ht.mono hpres)).bind fun _ _ _ h => .pure h.1

theorem linear_isInert {op : LinearOp} {rs : List Register} {o : Operation}
    (h : Operation.linear op rs = .ok o) : o.isInert = true := by
  unfold Operation.linear at h
  split at h <;> simp at h <;> subst h <;> rfl

theorem tidies_update {op : BinaryOp} {old : Bool} (ht : s.graph.Proper t) :
    Builder.Tidies (update b place op t old) s fun _ s' => s'.graph.IsOpen b := by
  refine tidies_popMany.bind fun rs s₁ hpres _ => ?_
  split
  case h_2 => exact .throw trivial
  case h_1 old' operand =>
    refine BlockGraph.Tidies.bind (P := fun o s' => s' = s₁ ∧ o.isInert = true)
      (.look fun o s' _ hrun => ?_) fun o s' _ ⟨hs', ho⟩ => ?_
    · obtain ⟨ho, rfl⟩ := Runs.lift_except_iff.1 hrun
      exact ⟨rfl, rfl, linear_isInert ho⟩
    · obtain rfl := hs'
      refine (tidies_emit (.of_inert ho) (ht.mono hpres)).bind fun new s₂ _ h₂ => ?_
      exact (tidies_store h₂.1 h₂.2).bind fun _ _ _ _ => tidies_copy.bind fun _ _ _ h => .pure h.1

theorem tidies_storeFields {n : Nat} {rs : List Register} :
    Builder.Tidies (storeFields b r n rs) s fun _ _ => True := by
  induction rs generalizing s n with
  | nil => exact .pure trivial
  | cons v vs ih =>
    exact (tidies_emit (.of_inert rfl) (proper_prim _)).bind fun _ _ _ _ => ih

theorem tidies_construct {l : LayoutId} {n : Nat} (hl : IsClass s.graph l) :
    Builder.Tidies (construct b l n) s fun _ s' => s'.graph.IsOpen b := by
  refine tidies_popMany.bind fun rs s₁ hpres _ => ?_
  obtain ⟨L, hL, name, horigin⟩ := hl.mono hpres
  refine (tidies_emit (.of_new hL (by simp [horigin])) (proper_object l)).bind fun object s₂ _ _ => ?_
  exact tidies_storeFields.bind fun _ _ _ _ => tidies_copy.bind fun _ _ _ h => .pure h.1

end Places

theorem tidies_applyLinear {op : LinearOp} {t : SourceType} :
    Tidies (applyLinear b op t) s fun _ s' => s'.graph.IsOpen b := by
  refine (tidies_lift tidies_popMany).bind fun rs s₁ _ _ => (tidies_lowerType t).bind fun v s₂ _ hv => ?_
  refine (tidies_except (Q := fun o : Operation => o.isInert = true) fun o ho => linear_isInert ho).bind
    fun o s₃ hpres ho => ?_
  exact (tidies_lift (tidies_emit (.of_inert ho) (hv.mono hpres))).bind fun _ _ _ h => .pure h.1

theorem tidies_constructed {k : ClassId} {n : Nat} :
    Tidies (constructed k n) s fun l s' => IsClass s'.graph l := by
  refine tidies_classLayout.bind fun l s₁ _ hl => ?_
  refine BlockGraph.Tidies.bind (P := fun _ s' => s' = s₁) (.look fun L s' _ hrun => ?_)
    fun L s' _ hs' => ?_
  · obtain ⟨t, ht, rfl⟩ := Runs.lift_build_iff.1 hrun
    obtain ⟨-, rfl⟩ := runs_layout.1 ht
    exact ⟨rfl, rfl⟩
  · obtain rfl := hs'
    refine .ite (fun _ => ?_) fun _ => .pure hl
    exact (BlockGraph.Tidies.throw (Q := fun _ _ => True) trivial).bind fun _ _ hpres _ =>
      .pure (hl.mono hpres)

theorem expectValueCast_isInert {op : CastOp} {u : Unit} (h : expectValueCast op = .ok u) :
    (Operation.cast op r).isInert = true := by
  cases op <;> simp [expectValueCast] at h <;> rfl

mutual

theorem tidies_lowerExpr {s : State} (b : BlockId) :
    (e : Expr) → Tidies (lowerExpr b e) s fun c s' => s'.graph.IsOpen c
  | .literal value type => by
    rw [lowerExpr]
    exact (tidies_lowerType type).bind fun _ _ _ ht =>
      (tidies_lift (tidies_emit (.of_inert rfl) ht)).bind fun _ _ _ h => .pure h.1
  | .var name _ => by
    rw [lowerExpr]
    exact (tidies_lift tidies_readSymbol).bind fun _ _ _ _ =>
      (tidies_lift tidies_copy).bind fun _ _ _ h => .pure h.1
  | .function id _ => by
    rw [lowerExpr]
    exact tidies_functionEntry.bind fun _ _ _ he =>
      (tidies_lift (tidies_emitRef he.1 he.2)).bind fun _ _ _ h => .pure h
  | .unary op operand type => by
    rw [lowerExpr]
    exact (tidies_lowerExpr b operand).bind fun c _ _ hc =>
      (tidies_lift (tidies_pushLast hc)).bind fun _ _ _ _ =>
        tidies_applyLinear.bind fun _ _ _ h => .pure h
  | .binary op left right type => by
    rw [lowerExpr]
    exact (tidies_lowerExpr b left).bind fun c _ _ hc =>
      (tidies_lift (tidies_pushLast hc)).bind fun _ _ _ _ =>
        (tidies_lowerExpr c right).bind fun d _ _ hd =>
          (tidies_lift (tidies_pushLast hd)).bind fun _ _ _ _ =>
            tidies_applyLinear.bind fun _ _ _ h => .pure h
  | .logic _ _ _ _ => by
    rw [lowerExpr]
    exact .throw trivial
  | .cast op operand type => by
    rw [lowerExpr]
    refine (tidies_except (Q := fun _ => expectValueCast op = .ok ()) fun _ h => h).bind
      fun _ _ _ hop => ?_
    exact (tidies_lowerExpr b operand).bind fun c _ _ hc =>
      (tidies_lift (tidies_lastRegister hc)).bind fun r _ _ _ =>
        (tidies_lowerType type).bind fun _ _ _ ht =>
          (tidies_lift (tidies_emit (.of_inert (expectValueCast_isInert hop)) ht)).bind
            fun _ _ _ h => .pure h.1
  | .field object index type => by
    rw [lowerExpr]
    exact (tidies_lowerExpr b object).bind fun c _ _ hc =>
      (tidies_lift (tidies_lastRegister hc)).bind fun r _ _ hr =>
        (tidies_lift (tidies_expectObject hr.1)).bind fun _ _ _ _ =>
          (tidies_lowerType type).bind fun _ _ _ ht =>
            (tidies_lift (tidies_emit (.of_inert rfl) ht)).bind fun _ _ _ h => .pure h.1
  | .assign target value _ => by
    rw [lowerExpr]
    refine (tidies_lowerAddress b target).bind fun ⟨b', place⟩ _ _ _ => ?_
    refine (tidies_lowerExpr b' value).bind fun c _ _ hc => ?_
    refine (tidies_lift (tidies_lastRegister hc)).bind fun r _ _ hr => ?_
    refine (tidies_lift (tidies_store hr.1 hr.2)).bind fun _ _ _ hd => ?_
    cases place with
    | var name => exact .pure hd
    | field index => exact (tidies_lift tidies_copy).bind fun _ _ _ h => .pure h.1
    | element => exact (tidies_lift tidies_copy).bind fun _ _ _ h => .pure h.1
  | .compound op target value type => by
    rw [lowerExpr]
    refine (tidies_lowerType type).bind fun _ _ _ ht => ?_
    refine (tidies_lowerAddress b target).bind fun ⟨c, place⟩ _ hpres _ => ?_
    refine (tidies_lift (tidies_load (ht.mono hpres))).bind fun _ _ hpres₁ hc => ?_
    refine (tidies_lift (tidies_pushLast hc)).bind fun _ _ hpres₂ _ => ?_
    refine (tidies_lowerExpr c value).bind fun _ _ hpres₃ hd => ?_
    refine (tidies_lift (tidies_pushLast hd)).bind fun _ _ hpres₄ _ => ?_
    have hall := hpres.trans (hpres₁.trans (hpres₂.trans (hpres₃.trans hpres₄)))
    exact (tidies_lift (tidies_update (ht.mono hall))).bind fun _ _ _ h => .pure h
  | .step op target type => by
    rw [lowerExpr]
    refine (tidies_lowerType type).bind fun _ _ _ ht => ?_
    refine (tidies_lowerAddress b target).bind fun ⟨c, place⟩ _ hpres _ => ?_
    refine (tidies_lift (tidies_load (ht.mono hpres))).bind fun _ _ hpres₁ hc => ?_
    refine (tidies_lift (tidies_pushLast hc)).bind fun _ _ hpres₂ _ => ?_
    have hloaded := hpres.trans (hpres₁.trans hpres₂)
    refine (tidies_lift (tidies_emitOne (ht.mono hloaded))).bind fun _ _ hpres₃ hone => ?_
    refine (tidies_lift (tidies_pushLast hone)).bind fun _ _ hpres₄ _ => ?_
    have hall := hloaded.trans (hpres₃.trans hpres₄)
    exact (tidies_lift (tidies_update (ht.mono hall))).bind fun _ _ _ h => .pure h
  | .conditional condition first second _ => by
    rw [lowerExpr]
    refine (tidies_lowerExpr b condition).bind fun c _ _ hc => ?_
    refine (tidies_lift (tidies_lastRegister hc)).bind fun r _ _ _ => ?_
    refine (tidies_lift tidies_branch).bind fun ⟨onTrue, onFalse⟩ _ _ _ => ?_
    refine (tidies_lowerExpr onTrue first).bind fun _ _ _ hfirst => ?_
    refine (tidies_lift (tidies_pushLast hfirst)).bind fun _ _ _ _ => ?_
    refine (tidies_lowerExpr onFalse second).bind fun _ _ _ hsecond => ?_
    refine (tidies_lift (tidies_pushLast hsecond)).bind fun _ _ _ _ => ?_
    refine (tidies_lift tidies_converge).bind fun _ _ _ _ => ?_
    exact (tidies_lift tidies_pop).bind fun _ _ _ _ =>
      (tidies_lift tidies_copy).bind fun _ _ _ h => .pure h.1
  | .call callee arguments type => by
    rw [lowerExpr]
    exact (tidies_lowerExpr b callee).bind fun c _ _ hc =>
      (tidies_lift (tidies_pushLast hc)).bind fun _ _ _ _ =>
        (tidies_lowerOperands c arguments).bind fun _ _ _ _ => tidies_lowerCall
  | .new k arguments _ => by
    rw [lowerExpr]
    exact tidies_constructed.bind fun l _ _ hl =>
      (tidies_lowerOperands b arguments).bind fun c _ hpres _ =>
        (tidies_lift (tidies_construct (hl.mono hpres))).bind fun _ _ _ h => .pure h
  | .newArray length type => by
    rw [lowerExpr]
    exact (tidies_lowerExpr b length).bind fun c _ _ hc =>
      (tidies_lift (tidies_lastRegister hc)).bind fun r _ _ _ =>
        (tidies_lowerType type).bind fun _ _ _ ht =>
          (tidies_lift (tidies_emit (.of_inert rfl) ht)).bind fun _ _ _ h => .pure h.1
  | .native name arguments type => by
    rw [lowerExpr]
    exact (tidies_lowerOperands b arguments).bind fun c _ _ _ =>
      (tidies_lift tidies_popMany).bind fun rs _ _ _ =>
        (tidies_lowerType type).bind fun _ _ _ ht =>
          (tidies_lift (tidies_emit (.of_inert rfl) ht)).bind fun _ _ _ h => .pure h.1

theorem tidies_lowerOperands {s : State} (b : BlockId) :
    (es : List Expr) → Tidies (lowerOperands b es) s fun _ _ => True
  | [] => by
    rw [lowerOperands]
    exact .pure trivial
  | e :: es => by
    rw [lowerOperands]
    exact (tidies_lowerExpr b e).bind fun c _ _ hc =>
      (tidies_lift (tidies_pushLast hc)).bind fun _ _ _ _ => tidies_lowerOperands c es

theorem tidies_lowerAddress {s : State} (b : BlockId) :
    (e : Expr) → Tidies (lowerAddress b e) s fun _ _ => True
  | .var name type => by
    rw [lowerAddress]
    exact .pure trivial
  | .field object index type => by
    rw [lowerAddress]
    refine (tidies_lowerExpr b object).bind fun c _ _ hc => ?_
    refine (tidies_lift (tidies_lastRegister hc)).bind fun r _ _ hr => ?_
    refine (tidies_lift (tidies_expectObject hr.1)).bind fun _ _ _ hc => ?_
    exact (tidies_lift (tidies_pushLast hc)).bind fun _ _ _ _ => .pure trivial
  | .binary .index array index type => by
    rw [lowerAddress]
    exact (tidies_lowerExpr b array).bind fun c _ _ hc =>
      (tidies_lift (tidies_pushLast hc)).bind fun _ _ _ _ =>
        (tidies_lowerExpr c index).bind fun d _ _ hd =>
          (tidies_lift (tidies_pushLast hd)).bind fun _ _ _ _ => .pure trivial
  | .literal .. | .function .. | .unary .. | .logic .. | .cast .. | .assign .. | .compound ..
  | .step .. | .conditional .. | .call .. | .new .. | .newArray .. | .native ..
  | .binary (.compare _) .. | .binary (.numeric _) .. | .binary (.shift _) .. | .binary .concat ..
  | .binary .identity .. => by
    simp only [lowerAddress]
    exact .throw trivial

end

end BlockGraph.Lowering

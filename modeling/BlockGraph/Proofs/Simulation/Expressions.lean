import BlockGraph.Proofs.Simulation.Calls
import BlockGraph.Proofs.Simulation.Places

namespace BlockGraph.Lowering

open Builder Interpretation

variable {I : Interpretation} {L : Lowered} {b c : BlockId} {r : Register} {s s' s₁ : State}
  {w : View I} {before : Contexts I} {σ : I.State} {y : (I.machine L).Point} {n : Nat}

theorem grows_lift {α : Type} {x : BuildM α} (hx : Stays b x) {a : α} {t : Builder}
    (h : Runs x s.toBuilder a t) : Grows s { s with toBuilder := t } :=
  (Rebuilds.of_moves (hx h).toMoves).grows

theorem tidy_lift {α : Type} {x : BuildM α} {Q : α → Builder → Prop}
    (hx : Builder.Tidies x s.toBuilder Q) {a : α} {t : Builder} (h : Runs x s.toBuilder a t)
    (hs : s.Tidy) : State.Tidy { s with toBuilder := t } :=
  ((tidies_lift hx hs).holds (Runs.lift_build_iff.2 ⟨t, h, rfl⟩)).1

theorem yields_lowerType {t : SourceType} {vt : ValueType} (h : Runs (lowerType t) s vt s')
    {v : Option I.Value} (hy : s.graph.Yields b w before σ v y) :
    s'.graph.Yields b w before σ v y := by
  obtain ⟨regs, cs, rfl, hw, hcs, hlast⟩ := hy
  refine ⟨regs, cs, rfl, hw.kept fun B hB => ?_, hcs, hlast⟩
  rw [Graph.block?, lowerType_blocks h]
  exact hB

theorem simulates_applyLinear {op : LinearOp} {t : SourceType} {u : Unit}
    (h : Runs (applyLinear b op t) s u s') (hL : Links L s') {ops : List I.Value}
    (vs : List I.Value) (hops : w.operands = ops ++ vs) (hlen : vs.length = op.arity)
    (hy : s.graph.Yields b w before σ none y) :
    Simulates L n y (perform (I.linear t.kind op vs) w.vars σ) fun v vs' σ' y' =>
      vs' = w.vars ∧ s'.graph.Yields b { w with operands := ops } before σ' (some v) y' := by
  simp only [applyLinear, Runs.bind_iff, Runs.lift_build_iff, Runs.lift_except_lower_iff,
    Runs.pure_iff] at h
  obtain ⟨rs, _, ⟨t₁, hpop, rfl⟩, vt, _, htype, o, s₂, ⟨ho, rfl⟩, _, _, ⟨t₃, hemit, rfl⟩, -, rfl⟩ := h
  obtain ⟨regs, cs, rfl, hw, hcs, -⟩ := hy
  obtain ⟨hw₁, hrs⟩ := mirrors_popMany hpop hw hops hlen
  have hw₂ : s₂.graph.Mirrors b regs { w with operands := ops } := hw₁.kept fun B hB => by
    rw [Graph.block?, lowerType_blocks htype]
    exact hB
  rw [← kind_of_runs htype]
  exact simulates_operation hemit hL.graph hw₂ hcs (hrs.linear ho vt _)

section OnLast

variable {t₁ t₂ : Builder} {vt : ValueType} {t : SourceType} {op : Operation} {r' : Register}
  (hlast : Runs (lastRegister b) s.toBuilder r t₁)
  (htype : Runs (lowerType t) { s with toBuilder := t₁ } vt s₁)

include hlast htype

theorem simulates_onLast (hemit : Runs (emit b op vt) s₁.toBuilder r' t₂)
    (hL : t₂.graph.Extends L.graph) (hop : op.operands = [r]) (hcopy : op.copy? = none) {v : I.Value}
    {f : I.State → Option (I.Value × I.State)}
    (hf : ∀ m : Memory I, I.execute L op.form t.kind [.plain v] m = m.yield (f m.own))
    (hy : s.graph.Yields b w before σ (some v) y) :
    Simulates L n y (perform f w.vars σ) fun x vs σ' y' =>
      vs = w.vars ∧ t₂.graph.Yields b w before σ' (some x) y' := by
  obtain ⟨regs, cs, rfl, hw, hcs, hv⟩ := hy
  obtain ⟨rfl, hr⟩ := reads_lastRegister hlast hw
  have hw₁ : s₁.graph.Mirrors b regs w := hw.kept fun B hB => by
    rw [Graph.block?, lowerType_blocks htype]
    exact hB
  have hreads : Reads regs op.operands [.plain v] := by
    rw [hop]
    exact .cons (hr.trans (hv v rfl)) .nil
  refine simulates_operation hemit hL hw₁ hcs ?_
  rw [hreads.value hcopy, kind_of_runs htype, hf]

end OnLast

section Realizes

variable (L n) (q : Program) (call : FunctionDecl → List I.Value → I.Eval (Option I.Value))

def Gives (s : State) (c : BlockId) (w : View I) (before : Contexts I) (t : SourceType) (v : I.Value)
    (vs : I.Variables) (σ : I.State) (y : (I.machine L).Point) : Prop :=
  w.vars.Same vs ∧
    s.graph.Yields c { w with vars := vs } before σ (if t.isVoid then none else some v) y

def Realizes (e : Expr) : Prop :=
  ∀ ⦃b c : BlockId⦄ ⦃s s' : State⦄ ⦃w : View I⦄ ⦃before : Contexts I⦄ ⦃σ : I.State⦄
    ⦃y : (I.machine L).Point⦄, Runs (lowerExpr b e) s c s' → s.Tidy → Links L s' →
    s.graph.Yields b w before σ none y →
    Simulates L (n + 1) y (evalExpr q call e w.vars σ) (Gives L s' c w before e.type)

def RealizesAll (es : List Expr) : Prop :=
  ∀ ⦃b c : BlockId⦄ ⦃s s' : State⦄ ⦃w : View I⦄ ⦃before : Contexts I⦄ ⦃σ : I.State⦄
    ⦃y : (I.machine L).Point⦄, Runs (lowerOperands b es) s c s' → s.Tidy → Links L s' →
    s.graph.Yields b w before σ none y →
    Simulates L (n + 1) y (evalExprs q call es w.vars σ) fun args vs σ' y' =>
      w.vars.Same vs ∧ args.length = es.length ∧
        s'.graph.Yields c { w with vars := vs, operands := w.operands ++ args } before σ' none y'

def RealizesPlace (e : Expr) : Prop :=
  ∀ ⦃b c : BlockId⦄ ⦃form : Place⦄ ⦃s s' : State⦄ ⦃w : View I⦄ ⦃before : Contexts I⦄
    ⦃σ : I.State⦄ ⦃y : (I.machine L).Point⦄, Runs (lowerAddress b e) s (c, form) s' → s.Tidy →
    Links L s' → s.graph.Yields b w before σ none y →
    Simulates L (n + 1) y (evalPlace q call e w.vars σ) fun place vs σ' y' =>
      w.vars.Same vs ∧ form = place.form ∧
        s'.graph.Yields c { w with vars := vs, operands := w.operands ++ place.operands } before σ'
          none y'

variable {L n q call} {e e' : Expr} {es : List Expr} {t : SourceType}

theorem Gives.of_yields {v : I.Value} {vs : I.Variables} (hvs : w.vars.Same vs)
    (hy : s.graph.Yields c { w with vars := vs } before σ (some v) y) (t : SourceType) :
    Gives L s c w before t v vs σ y :=
  ⟨hvs, hy.unlessVoid t⟩

theorem Gives.value {v : I.Value} {vs : I.Variables} (h : Gives L s c w before t v vs σ y)
    (ht : t.isVoid = false) : s.graph.Yields c { w with vars := vs } before σ (some v) y := by
  have hy := h.2
  rwa [ht] at hy

theorem Realizes.operand (he : Realizes L n q call e) (hv : e.type.isVoid = false) {t : Builder}
    {u : Unit} (h : Runs (lowerExpr b e) s c s₁) (hpush : Runs (pushLast c) s₁.toBuilder u t)
    (hs : s.Tidy) (hL : Links L { s₁ with toBuilder := t })
    (hy : s.graph.Yields b w before σ none y) :
    Simulates L (n + 1) y (evalExpr q call e w.vars σ) fun v vs σ' y' => w.vars.Same vs ∧
      t.graph.Yields c { w with vars := vs, operands := w.operands ++ [v] } before σ' none y' := by
  refine (he h hs (hL.back (grows_lift stays_pushLast hpush)) hy).imp ?_
  intro v vs σ' y' hgives
  exact ⟨hgives.1, yields_pushLast hpush (hgives.value hv)⟩

theorem tidy_operand {t : Builder} {u : Unit} (h : Runs (lowerExpr b e) s c s₁)
    (hpush : Runs (pushLast c) s₁.toBuilder u t) (hs : s.Tidy) :
    State.Tidy { s₁ with toBuilder := t } := by
  obtain ⟨hs₁, -, hopen⟩ := (tidies_lowerExpr b e hs).holds h
  exact tidy_lift (tidies_pushLast hopen) hpush hs₁

theorem realizes_literal (value : Literal) (t : SourceType) :
    Realizes L n q call (.literal value t) := by
  intro b c s s' w before σ y h hs hL hy
  simp only [lowerExpr, Runs.bind_iff, Runs.lift_build_iff, Runs.pure_iff] at h
  obtain ⟨vt, s₁, htype, _, _, ⟨t₂, hemit, rfl⟩, rfl, rfl⟩ := h
  obtain ⟨regs, cs, rfl, hw, hcs, -⟩ := yields_lowerType htype hy
  obtain ⟨hgoes, hw'⟩ := goes_emit (m := ⟨σ, cs⟩) hemit hL.graph hw rfl
  refine ⟨0, _, hgoes, .of_yields (.refl _) ⟨_, cs, rfl, hw', hcs, ?_⟩ t⟩
  rintro _ ⟨⟩
  exact List.getLast?_concat

theorem realizes_var (name : String) (t : SourceType) : Realizes L n q call (.var name t) := by
  intro b c s s' w before σ y h hs hL hy
  simp only [lowerExpr, Runs.bind_iff, Runs.lift_build_iff, Runs.pure_iff] at h
  obtain ⟨r, _, ⟨t₁, hread, rfl⟩, _, _, ⟨t₂, hcopy, rfl⟩, rfl, rfl⟩ := h
  obtain ⟨regs, cs, rfl, hw, hcs, -⟩ := hy
  obtain ⟨rfl, v, hv, hr⟩ := reads_readSymbol hread hw
  obtain ⟨y, hgoes, hyields⟩ := yields_copy (σ := σ) hcopy hL.graph hw hcs hr
  simp only [evalExpr, readVar, hv]
  exact ⟨0, y, hgoes, .of_yields (.refl _) hyields t⟩

theorem realizes_function (f : FunctionId) (t : SourceType) :
    Realizes L n q call (.function f t) := by
  intro b c s s' w before σ y h hs hL hy
  simp only [lowerExpr, Runs.bind_iff, runs_functionEntry, Runs.lift_build_iff, Runs.pure_iff] at h
  obtain ⟨e, _, ⟨he, rfl⟩, _, _, ⟨t₂, href, rfl⟩, rfl, rfl⟩ := h
  obtain ⟨regs, cs, rfl, hw, hcs, -⟩ := hy
  obtain ⟨hgoes, hw'⟩ := goes_emitRef (m := ⟨σ, cs⟩) href hL.graph hw
  have hreference : I.reference L e.entry = .plain (I.function f) := by
    rw [reference, hL.function f.index e he]
  rw [hreference] at hgoes hw'
  refine ⟨0, _, hgoes, .of_yields (.refl _) ⟨_, cs, rfl, hw', hcs, ?_⟩ t⟩
  rintro _ ⟨⟩
  exact List.getLast?_concat

theorem Realizes.unary (he : Realizes L n q call e) (hv : e.type.isVoid = false) (op : UnaryOp)
    (t : SourceType) : Realizes L n q call (.unary op e t) := by
  intro b c s s' w before σ y h hs hL hy
  simp only [lowerExpr, Runs.bind_iff, Runs.lift_build_iff, Runs.pure_iff] at h
  obtain ⟨c, s₁, he₁, _, _, ⟨t₂, hpush, rfl⟩, _, _, happly, rfl, rfl⟩ := h
  have hL₂ := hL.back (traces_applyLinear (R := Advances) happly).grows
  refine Simulates.bind (he.operand hv he₁ hpush hs hL₂ hy) ?_
  rintro v vs σ₁ y₁ ⟨hvs, hy₁⟩
  refine (simulates_applyLinear happly hL [v] rfl rfl hy₁).imp ?_
  rintro v' _ σ₂ y₂ ⟨rfl, hy₂⟩
  exact .of_yields hvs hy₂ t

theorem Realizes.binary (he : Realizes L n q call e) (he' : Realizes L n q call e')
    (hv : e.type.isVoid = false) (hv' : e'.type.isVoid = false) (op : BinaryOp) (t : SourceType) :
    Realizes L n q call (.binary op e e' t) := by
  intro b c s s' w before σ y h hs hL hy
  simp only [lowerExpr, Runs.bind_iff, Runs.lift_build_iff, Runs.pure_iff] at h
  obtain ⟨c₁, s₁, he₁, _, _, ⟨t₂, hpush, rfl⟩, c, s₃, he₃, _, _, ⟨t₄, hpush', rfl⟩, _, _, happly,
    rfl, rfl⟩ := h
  have hL₄ := hL.back (traces_applyLinear (R := Advances) happly).grows
  have hL₃ := hL₄.back (grows_lift stays_pushLast hpush')
  have hL₂ := hL₃.back (leads_lowerExpr _ _ he₃).grows
  refine Simulates.bind (he.operand hv he₁ hpush hs hL₂ hy) ?_
  rintro v vs σ₁ y₁ ⟨hvs, hy₁⟩
  refine Simulates.bind (he'.operand hv' he₃ hpush' (tidy_operand he₁ hpush hs) hL₄ hy₁) ?_
  rintro v' vs' σ₂ y₂ ⟨hvs', hy₂⟩
  refine (simulates_applyLinear happly hL [v, v'] (List.append_assoc _ _ _) rfl hy₂).imp ?_
  rintro x _ σ₃ y₃ ⟨rfl, hy₃⟩
  exact .of_yields (hvs.trans hvs') hy₃ t

theorem realizes_logic (op : LogicOp) (e e' : Expr) (t : SourceType) :
    Realizes L n q call (.logic op e e' t) := by
  intro b c s s' w before σ y h
  simp [lowerExpr] at h

theorem Realizes.operation (he : Realizes L n q call e) (hv : e.type.isVoid = false)
    {t₁ t₂ : Builder} {s₂ : State} {vt : ValueType} {op : Operation} {r' : Register}
    (he₁ : Runs (lowerExpr b e) s c s₁) (hlast : Runs (lastRegister c) s₁.toBuilder r t₁)
    (htype : Runs (lowerType t) { s₁ with toBuilder := t₁ } vt s₂)
    (hemit : Runs (emit c op vt) s₂.toBuilder r' t₂) (hplain : op.isPlain = true)
    (hop : op.operands = [r]) (hcopy : op.copy? = none)
    {f : I.Value → I.State → Option (I.Value × I.State)}
    (hf : ∀ v (m : Memory I), I.execute L op.form t.kind [.plain v] m = m.yield (f v m.own))
    (hs : s.Tidy) (hL : Links L { s₂ with toBuilder := t₂ })
    (hy : s.graph.Yields b w before σ none y) :
    Simulates L (n + 1) y ((do
        let v ← evalExpr q call e
        perform (f v) : I.Eval I.Value) w.vars σ)
      (Gives L { s₂ with toBuilder := t₂ } c w before t) := by
  have hL₁ : Links L s₁ := by
    obtain ⟨-, -, -, rfl⟩ := runs_lastRegister.1 hlast
    exact (hL.back (grows_lift (stays_emit hplain) hemit)).back ((settles_lowerType t).grows htype)
  refine Simulates.bind (he he₁ hs hL₁ hy) ?_
  intro v vs σ₁ y₁ hgives
  refine (simulates_onLast hlast htype hemit hL.graph hop hcopy (hf v) (hgives.value hv)).imp ?_
  rintro x _ σ₂ y₂ ⟨rfl, hy₂⟩
  exact .of_yields hgives.1 hy₂ t

theorem Realizes.cast (he : Realizes L n q call e) (hv : e.type.isVoid = false) (op : CastOp)
    (t : SourceType) : Realizes L n q call (.cast op e t) := by
  intro b c s s' w before σ y h hs hL hy
  simp only [lowerExpr, Runs.bind_iff, Runs.lift_except_lower_iff, Runs.lift_build_iff,
    Runs.pure_iff] at h
  obtain ⟨_, _, ⟨-, rfl⟩, c, s₁, he₁, r, _, ⟨t₂, hlast, rfl⟩, vt, s₃, htype, _, _, ⟨t₄, hemit, rfl⟩,
    rfl, rfl⟩ := h
  exact he.operation hv he₁ hlast htype hemit rfl rfl rfl (fun _ _ => rfl) hs hL hy

theorem Realizes.newArray (he : Realizes L n q call e) (hv : e.type.isVoid = false)
    (t : SourceType) : Realizes L n q call (.newArray e t) := by
  intro b c s s' w before σ y h hs hL hy
  simp only [lowerExpr, Runs.bind_iff, Runs.lift_build_iff, Runs.pure_iff] at h
  obtain ⟨c, s₁, he₁, r, _, ⟨t₂, hlast, rfl⟩, vt, s₃, htype, _, _, ⟨t₄, hemit, rfl⟩, rfl, rfl⟩ := h
  exact he.operation hv he₁ hlast htype hemit rfl rfl rfl (fun _ _ => rfl) hs hL hy

theorem Realizes.field (he : Realizes L n q call e) (hv : e.type.isVoid = false) (index : Nat)
    (t : SourceType) : Realizes L n q call (.field e index t) := by
  intro b c s s' w before σ y h hs hL hy
  simp only [lowerExpr, Runs.bind_iff, Runs.lift_build_iff, Runs.pure_iff] at h
  obtain ⟨c, s₁, he₁, r, _, ⟨t₂, hlast, rfl⟩, _, _, ⟨t₃, hobject, rfl⟩, vt, s₃, htype, _, _,
    ⟨t₄, hemit, rfl⟩, rfl, rfl⟩ := h
  obtain rfl := expectObject_state hobject
  exact he.operation hv he₁ hlast htype hemit rfl rfl rfl (fun _ _ => rfl) hs hL hy

theorem RealizesAll.native (he : RealizesAll L n q call es) (name : String) (t : SourceType) :
    Realizes L n q call (.native name es t) := by
  intro b c s s' w before σ y h hs hL hy
  simp only [lowerExpr, Runs.bind_iff, Runs.lift_build_iff, Runs.pure_iff] at h
  obtain ⟨c, s₁, hes, rs, _, ⟨t₂, hpop, rfl⟩, vt, s₃, htype, _, _, ⟨t₄, hemit, rfl⟩, rfl, rfl⟩ := h
  have hL₃ := hL.back (grows_lift (stays_emit (by rfl)) hemit)
  have hL₂ := hL₃.back ((settles_lowerType t).grows htype)
  have hL₁ := hL₂.back (grows_lift stays_popMany hpop)
  refine Simulates.bind (he hes hs hL₁ hy) ?_
  rintro args vs σ₁ _ ⟨hvs, hlen, regs, cs, rfl, hw, hcs, -⟩
  obtain ⟨hw₂, hrs⟩ := mirrors_popMany hpop hw rfl hlen
  have hw₃ : s₃.graph.Mirrors c regs { w with vars := vs } := hw₂.kept fun B hB => by
    rw [Graph.block?, lowerType_blocks htype]
    exact hB
  have hreads : Reads regs (Operation.native name rs).operands (args.map .plain) := hrs
  refine (simulates_operation (f := I.native name t.kind args) hemit hL.graph hw₃ hcs ?_).imp ?_
  · rw [hreads.value rfl, kind_of_runs htype, execute_native]
  · rintro x _ σ₂ y₂ ⟨rfl, hy₂⟩
    exact .of_yields hvs hy₂ t

theorem RealizesAll.new (he : RealizesAll L n q call es) (k : ClassId) (t : SourceType) :
    Realizes L n q call (.new k es t) := by
  intro b c s s' w before σ y h hs hL hy
  simp only [lowerExpr, Runs.bind_iff, Runs.lift_build_iff, Runs.pure_iff] at h
  obtain ⟨l, s₁, hl, c, s₂, hes, _, _, ⟨t₃, hnew, rfl⟩, rfl, rfl⟩ := h
  obtain ⟨hl, rfl⟩ := constructed_inv hl
  have hL₂ := hL.back (grows_lift edits_construct.stays hnew)
  have hclass := (hL₂.back (traces_lowerOperands (R := Advances) b es hes).grows).class_ k.index l hl
  refine Simulates.bind (he hes hs hL₂ hy) ?_
  rintro args vs σ₁ y₁ ⟨hvs, hlen, hy₁⟩
  rw [← hlen] at hnew
  refine (simulates_construct hclass hnew hL.graph rfl hy₁).imp ?_
  rintro x _ σ₂ y₂ ⟨rfl, hy₂⟩
  exact .of_yields hvs hy₂ t

theorem Realizes.application (he : Realizes L n q call e) (hes : RealizesAll L n q call es)
    (hcalls : CallsSimulate L q n call) (hv : e.type.isVoid = false) (t : SourceType) :
    Realizes L n q call (.call e es t) := by
  intro b c s s' w before σ y h hs hL hy
  simp only [lowerExpr, Runs.bind_iff, Runs.lift_build_iff] at h
  obtain ⟨c₁, s₁, he₁, _, _, ⟨t₂, hpush, rfl⟩, c₂, s₃, hes₃, hcall⟩ := h
  have hs₂ := tidy_operand he₁ hpush hs
  have hs₃ := ((tidies_lowerOperands c₁ es hs₂).holds hes₃).1
  have hL₃ := hL.back (leads_lowerCall hcall).grows
  have hL₂ := hL₃.back (traces_lowerOperands (R := Advances) c₁ es hes₃).grows
  refine Simulates.bind (he.operand hv he₁ hpush hs hL₂ hy) ?_
  rintro v vs σ₁ y₁ ⟨hvs, hy₁⟩
  refine Simulates.bind (hes hes₃ hs₂ hL₃ hy₁) ?_
  rintro args vs' σ₂ _ ⟨hvs', hlen, regs, cs, rfl, hw, hcs, -⟩
  rw [List.append_assoc] at hw
  rw [← hlen] at hcall
  refine (simulates_lowerCall hcalls hcall hs₃ hL hw).imp ?_
  rintro x _ σ₃ _ ⟨rfl, regs', cs', rfl, hw', hcs', hlast⟩
  exact ⟨hvs.trans hvs', regs', cs', rfl, hw', hcs.trans hcs', hlast⟩

theorem realizesAll_nil : RealizesAll L n q call [] := by
  intro b c s s' w before σ y h hs hL hy
  obtain ⟨rfl, rfl⟩ := Runs.pure_iff.1 (by simpa only [lowerOperands] using h)
  exact ⟨0, y, .refl y, .refl _, rfl, by simpa using hy⟩

theorem Realizes.all (he : Realizes L n q call e) (hes : RealizesAll L n q call es)
    (hv : e.type.isVoid = false) : RealizesAll L n q call (e :: es) := by
  intro b c s s' w before σ y h hs hL hy
  simp only [lowerOperands, Runs.bind_iff, Runs.lift_build_iff] at h
  obtain ⟨c₁, s₁, he₁, _, _, ⟨t₂, hpush, rfl⟩, hrest⟩ := h
  have hL₂ := hL.back (traces_lowerOperands (R := Advances) c₁ es hrest).grows
  refine Simulates.bind (he.operand hv he₁ hpush hs hL₂ hy) ?_
  rintro v vs σ₁ y₁ ⟨hvs, hy₁⟩
  refine Simulates.bind (hes hrest (tidy_operand he₁ hpush hs) hL hy₁) ?_
  rintro args vs' σ₂ y₂ ⟨hvs', hlen, hy₂⟩
  exact ⟨0, y₂, .refl y₂, hvs.trans hvs', by simp [hlen], by simpa using hy₂⟩

theorem realizesPlace_var (name : String) (t : SourceType) :
    RealizesPlace L n q call (.var name t) := by
  intro b c form s s' w before σ y h hs hL hy
  obtain ⟨heq, rfl⟩ := Runs.pure_iff.1 (by simpa only [lowerAddress] using h)
  obtain ⟨rfl, rfl⟩ := Prod.mk.inj heq
  exact ⟨0, y, .refl y, .refl _, rfl, by simpa [Place.operands] using hy⟩

theorem Realizes.placeField (he : Realizes L n q call e) (hv : e.type.isVoid = false) (index : Nat)
    (t : SourceType) : RealizesPlace L n q call (.field e index t) := by
  intro b c form s s' w before σ y h hs hL hy
  simp only [lowerAddress, Runs.bind_iff, Runs.lift_build_iff, Runs.pure_iff, Prod.mk.injEq] at h
  obtain ⟨c, s₁, he₁, r, _, ⟨t₂, hlast, rfl⟩, _, _, ⟨t₃, hobject, rfl⟩, _, _, ⟨t₄, hpush, rfl⟩,
    ⟨rfl, rfl⟩, rfl⟩ := h
  obtain rfl := expectObject_state hobject
  obtain ⟨-, -, -, rfl⟩ := runs_lastRegister.1 hlast
  refine Simulates.bind (he.operand hv he₁ hpush hs hL hy) ?_
  rintro v vs σ₁ y₁ ⟨hvs, hy₁⟩
  exact ⟨0, y₁, .refl y₁, hvs, rfl, hy₁⟩

theorem Realizes.placeElement (he : Realizes L n q call e) (he' : Realizes L n q call e')
    (hv : e.type.isVoid = false) (hv' : e'.type.isVoid = false) (t : SourceType) :
    RealizesPlace L n q call (.binary .index e e' t) := by
  intro b c form s s' w before σ y h hs hL hy
  simp only [lowerAddress, Runs.bind_iff, Runs.lift_build_iff, Runs.pure_iff, Prod.mk.injEq] at h
  obtain ⟨c₁, s₁, he₁, _, _, ⟨t₂, hpush, rfl⟩, c, s₃, he₃, _, _, ⟨t₄, hpush', rfl⟩, ⟨rfl, rfl⟩,
    rfl⟩ := h
  have hL₃ := hL.back (grows_lift stays_pushLast hpush')
  have hL₂ := hL₃.back (leads_lowerExpr _ _ he₃).grows
  refine Simulates.bind (he.operand hv he₁ hpush hs hL₂ hy) ?_
  rintro v vs σ₁ y₁ ⟨hvs, hy₁⟩
  refine Simulates.bind (he'.operand hv' he₃ hpush' (tidy_operand he₁ hpush hs) hL hy₁) ?_
  rintro v' vs' σ₂ y₂ ⟨hvs', hy₂⟩
  exact ⟨0, y₂, .refl y₂, hvs.trans hvs', rfl, by simpa [Place.operands] using hy₂⟩

theorem RealizesPlace.assign (hp : RealizesPlace L n q call e) (he : Realizes L n q call e')
    (hv : e'.type.isVoid = false) (t : SourceType) : Realizes L n q call (.assign e e' t) := by
  intro b c s s' w before σ y h hs hL hy
  simp only [lowerExpr, Runs.bind_iff, Runs.lift_build_iff] at h
  obtain ⟨⟨c₁, form⟩, s₁, hplace, c₂, s₂, he₂, r, _, ⟨t₃, hlast, rfl⟩, _, _, ⟨t₄, hstore, rfl⟩, h⟩ := h
  dsimp only at he₂ hlast hstore h
  have hs₁ := ((tidies_lowerAddress b e hs).holds hplace).1
  have hL₄ : Links L { s₂ with toBuilder := t₄ } := by
    split at h
    · obtain ⟨-, rfl⟩ := Runs.pure_iff.1 h
      exact hL
    · simp only [Runs.bind_iff, Runs.lift_build_iff, Runs.pure_iff] at h
      obtain ⟨_, _, ⟨t₅, hcopy, rfl⟩, -, rfl⟩ := h
      exact hL.back (grows_lift stays_copy hcopy)
  obtain ⟨-, -, -, rfl⟩ := runs_lastRegister.1 hlast
  have hL₂ := hL₄.back (grows_lift stays_store hstore)
  have hL₁ := hL₂.back (leads_lowerExpr _ _ he₂).grows
  refine Simulates.bind (hp hplace hs hL₁ hy) ?_
  rintro place vs σ₁ y₁ ⟨hvs, rfl, hy₁⟩
  refine Simulates.bind (he he₂ hs₁ hL₂ hy₁) ?_
  intro v vs' σ₂ y₂ hgives
  obtain ⟨regs, cs, rfl, hw, hcs, hlast'⟩ := hgives.value hv
  have hr := (reads_lastRegister hlast hw).2.trans (hlast' v rfl)
  refine Simulates.bind (simulates_store hstore hL₄.graph rfl hw hr) ?_
  rintro _ vs'' σ₃ _ ⟨hvs'', more, rfl, hw', hmore⟩
  have hall := hvs.trans (hgives.1.trans hvs'')
  cases place with
  | var name =>
    obtain rfl := hmore name rfl
    obtain ⟨rfl, rfl⟩ := Runs.pure_iff.1 h
    refine ⟨0, _, .refl _, .of_yields hall ⟨_, cs, rfl, hw', hcs, ?_⟩ t⟩
    simpa using hlast'
  | field object index | element array index =>
    simp only [Interpretation.Place.form, Runs.bind_iff, Runs.lift_build_iff, Runs.pure_iff] at h
    obtain ⟨_, _, ⟨t₅, hcopy, rfl⟩, rfl, rfl⟩ := h
    obtain ⟨y, hgoes, hy'⟩ := yields_copy (σ := σ₃) hcopy hL.graph hw' hcs
      (getElem?_append_of_some hr more)
    exact ⟨0, y, hgoes, .of_yields hall hy' t⟩

theorem RealizesPlace.compound (hp : RealizesPlace L n q call e) (he : Realizes L n q call e')
    (hv : e'.type.isVoid = false) (op : CompoundOp) (t : SourceType) :
    Realizes L n q call (.compound op e e' t) := by
  intro b c s s' w before σ y h hs hL hy
  simp only [lowerExpr, Runs.bind_iff, Runs.lift_build_iff, Runs.pure_iff] at h
  obtain ⟨vt, s₁, htype, ⟨c₁, form⟩, s₂, hplace, _, _, ⟨t₃, hload, rfl⟩, _, _, ⟨t₄, hpush, rfl⟩, c, s₅,
    he₅, _, _, ⟨t₆, hpush', rfl⟩, _, _, ⟨t₇, hupdate, rfl⟩, rfl, rfl⟩ := h
  dsimp only at hload hpush he₅ hpush' hupdate hL
  obtain ⟨hs₁, -, ht⟩ := (tidies_lowerType t hs).holds htype
  obtain ⟨hs₂, hpres, -⟩ := (tidies_lowerAddress b e hs₁).holds hplace
  obtain ⟨hs₃, -, hopen⟩ := (tidies_lift (tidies_load (ht.mono hpres)) hs₂).holds
    (Runs.lift_build_iff.2 ⟨t₃, hload, rfl⟩)
  have hs₄ := tidy_lift (tidies_pushLast hopen) hpush hs₃
  have hL₆ := hL.back (grows_lift (s := { s₅ with toBuilder := t₆ }) edits_update.stays hupdate)
  have hL₅ := hL₆.back (grows_lift stays_pushLast hpush')
  have hL₄ := hL₅.back (leads_lowerExpr _ _ he₅).grows
  have hL₃ := hL₄.back (grows_lift (s := { s₂ with toBuilder := t₃ }) stays_pushLast hpush)
  have hL₂ := hL₃.back (grows_lift edits_load.stays hload)
  simp only [evalExpr]
  rw [← kind_of_runs htype]
  refine Simulates.bind (hp hplace hs₁ hL₂ (yields_lowerType htype hy)) ?_
  rintro place vs σ₁ y₁ ⟨hvs, rfl, hy₁⟩
  refine Simulates.bind (simulates_load hload hL₃.graph rfl hy₁) ?_
  rintro old _ σ₂ y₂ ⟨rfl, hy₂⟩
  refine Simulates.bind (he.operand hv he₅ hpush' hs₄ hL₆ (yields_pushLast hpush hy₂)) ?_
  rintro v vs' σ₃ y₃ ⟨hvs', hy₃⟩
  refine (simulates_update hupdate hL.graph (List.append_assoc _ [old] [v]) hy₃).imp ?_
  rintro x vs'' σ₄ y₄ ⟨hvs'', hy₄⟩
  exact .of_yields (hvs.trans (hvs'.trans hvs'')) hy₄ t

theorem RealizesPlace.step (hp : RealizesPlace L n q call e) (op : StepOp) (t : SourceType) :
    Realizes L n q call (.step op e t) := by
  intro b c s s' w before σ y h hs hL hy
  simp only [lowerExpr, Runs.bind_iff, Runs.lift_build_iff, Runs.pure_iff] at h
  obtain ⟨vt, s₁, htype, ⟨c₁, form⟩, s₂, hplace, _, _, ⟨t₃, hload, rfl⟩, _, _, ⟨t₄, hpush, rfl⟩, _, _,
    ⟨t₅, hone, rfl⟩, _, _, ⟨t₆, hpush', rfl⟩, _, _, ⟨t₇, hupdate, rfl⟩, rfl, rfl⟩ := h
  dsimp only at hload hpush hone hpush' hupdate hL
  have hs₁ := ((tidies_lowerType t hs).holds htype).1
  have hL₆ := hL.back (grows_lift (s := { s₂ with toBuilder := t₆ }) edits_update.stays hupdate)
  have hL₅ := hL₆.back (grows_lift (s := { s₂ with toBuilder := t₅ }) stays_pushLast hpush')
  have hL₄ := hL₅.back (grows_lift (s := { s₂ with toBuilder := t₄ }) edits_emitOne.stays hone)
  have hL₃ := hL₄.back (grows_lift (s := { s₂ with toBuilder := t₃ }) stays_pushLast hpush)
  have hL₂ := hL₃.back (grows_lift edits_load.stays hload)
  simp only [evalExpr]
  rw [← kind_of_runs htype]
  refine Simulates.bind (hp hplace hs₁ hL₂ (yields_lowerType htype hy)) ?_
  rintro place vs σ₁ y₁ ⟨hvs, rfl, hy₁⟩
  refine Simulates.bind (simulates_load hload hL₃.graph rfl hy₁) ?_
  rintro old _ σ₂ y₂ ⟨rfl, hy₂⟩
  refine Simulates.bind (simulates_emitOne hone hL₅.graph (yields_pushLast hpush hy₂)) ?_
  rintro v _ σ₃ y₃ ⟨rfl, hy₃⟩
  refine (simulates_update hupdate hL.graph (List.append_assoc _ [old] [v]) (yields_pushLast hpush' hy₃)).imp ?_
  rintro x vs' σ₄ y₄ ⟨hvs', hy₄⟩
  exact .of_yields (hvs.trans hvs') hy₄ t

theorem simulates_choose {v : I.Value} {d d' : BlockId} {t₁ t₂ : Builder}
    (hlast : Runs (lastRegister b) s.toBuilder r t₁) (hbranch : Runs (branch b r) t₁ (d, d') t₂)
    (hL : t₂.graph.Extends L.graph) (hy : s.graph.Yields b w before σ (some v) y) :
    Simulates L n y (choose v w.vars σ) fun side vs σ' y' =>
      vs = w.vars ∧ t₂.graph.Yields (if side then d else d') w before σ' none y' ∧
        t₂.graph.Frames b w := by
  obtain ⟨regs, cs, rfl, hw, hcs, hv⟩ := hy
  obtain ⟨rfl, hr⟩ := reads_lastRegister hlast hw
  have hgoes := goes_branch hbranch hL hw (hr.trans (hv v rfl)) ⟨σ, cs⟩
  rw [choose]
  cases hside : I.truth v with
  | some side =>
    rw [hside] at hgoes
    obtain ⟨args, hgoes, hreceives⟩ := hgoes
    refine ⟨1, _, hgoes.trans (hreceives.goes hL ⟨σ, cs⟩), rfl, ?_, frames_branch hbranch hw.frames⟩
    exact ⟨args, cs, rfl, hreceives.mirrors, hcs, by simp⟩
  | none =>
    rw [hside] at hgoes
    obtain ⟨y, hgoes, htraps⟩ := hgoes
    exact ⟨0, y, cs, hgoes, htraps⟩

theorem yields_merge {a d d' : BlockId} {t₁ t₂ t₃ : Builder} {r' : Register}
    (hmerge : Runs (merge a d d') s.toBuilder c t₁) (hpop : Runs (pop c) t₁ r t₂)
    (hcopy : Runs (copy c r) t₂ r' t₃) (hL : t₃.graph.Extends L.graph) {w₀ : View I}
    (hframes : s.graph.Frames a w₀) (hslot : w.slot = w₀.slot) (hvs : w₀.vars.Keeps w.vars)
    (hb : b ∈ [d, d']) {v : I.Value}
    (hy : s.graph.Yields b { w with operands := w.operands ++ [v] } before σ none y) :
    ∃ y', L.graph.Goes (M := I.machine L) 1 y y' ∧ t₃.graph.Yields c w before σ (some v) y' := by
  obtain ⟨regs, cs, rfl, hw, hcs, -⟩ := hy
  have hL₂ := (Leads.extends stays_copy hcopy).trans hL
  have hL₁ := (Leads.extends stays_pop hpop).trans hL₂
  obtain ⟨args, hgoes, hreceives⟩ := goes_converge hmerge hL₁ hframes hb hw hslot hvs.passes ⟨σ, cs⟩
  obtain ⟨hw₂, hr⟩ := mirrors_pop hpop hreceives.mirrors rfl
  obtain ⟨y', hgoes', hy'⟩ := yields_copy (σ := σ) hcopy hL hw₂ hcs hr
  exact ⟨y', (hgoes.trans (hreceives.goes hL₁ ⟨σ, cs⟩)).trans hgoes', hy'⟩

theorem Realizes.conditional {e₀ : Expr} (he₀ : Realizes L n q call e₀) (he : Realizes L n q call e)
    (he' : Realizes L n q call e') (hv₀ : e₀.type.isVoid = false) (hv : e.type.isVoid = false)
    (hv' : e'.type.isVoid = false) (t : SourceType) :
    Realizes L n q call (.conditional e₀ e e' t) := by
  intro b c s s' w before σ y h hs hL hy
  simp only [lowerExpr, Runs.bind_iff, Runs.lift_build_iff, Runs.pure_iff] at h
  obtain ⟨a, s₁, hcond, r, _, ⟨t₂, hlast, rfl⟩, ⟨onTrue, onFalse⟩, _, ⟨t₃, hbranch, rfl⟩, d, s₄, hfirst,
    _, _, ⟨t₅, hpush, rfl⟩, d', s₆, hsecond, _, _, ⟨t₇, hpush', rfl⟩, c, _, ⟨t₈, hmerge, rfl⟩, r', _,
    ⟨t₉, hpop, rfl⟩, _, _, ⟨t₁₀, hcopy, rfl⟩, rfl, rfl⟩ := h
  dsimp only at hfirst hsecond hL hcopy
  obtain ⟨-, -, -, rfl⟩ := runs_lastRegister.1 hlast
  obtain ⟨hs₁, -, hopen⟩ := (tidies_lowerExpr b e₀ hs).holds hcond
  have hs₃ := tidy_lift tidies_branch hbranch hs₁
  have hs₅ := tidy_operand hfirst hpush hs₃
  -- the arms, and the block before them, are apart from each other
  obtain ⟨⟨hat, haf, htf⟩, -, hF⟩ := branch_apart hbranch
  have harm : Advances onTrue _ d { s₄ with toBuilder := t₅ } :=
    (leads_lowerExpr onTrue e hfirst).trans (.of_moves (stays_pushLast hpush).toMoves)
  have harm' : Advances onFalse _ d' { s₆ with toBuilder := t₇ } :=
    (leads_lowerExpr onFalse e' hsecond).trans (.of_moves (stays_pushLast hpush').toMoves)
  obtain ⟨F, hF⟩ := Option.ne_none_iff_exists'.1 hF
  have hfd := harm.apart (c := onFalse) (by simpa using htf.symm) hF
  have hL₉ := hL.back (grows_lift (s := { s₆ with toBuilder := t₉ }) stays_copy hcopy)
  have hL₈ := hL₉.back (grows_lift (s := { s₆ with toBuilder := t₈ }) stays_pop hpop)
  have hmerges := Rebuilds.of_moves (s := { s₆ with toBuilder := t₇ }) (moves_converge hmerge)
  have hL₇ := hL₈.back hmerges.grows
  have hL₅ := hL₇.back harm'.grows
  have hL₃ := hL₅.back harm.grows
  have hL₁ := hL₃.back (rebuilds_branch hlast hbranch).grows
  refine Simulates.bind (he₀ hcond hs hL₁ hy) ?_
  intro v vs σ₁ y₁ hgives
  refine Simulates.bind (simulates_choose hlast hbranch hL₃.graph (hgives.value hv₀)) ?_
  rintro side vs σ₂ y₂ ⟨rfl, hy₂, hframes⟩
  have hframes' : t₇.graph.Frames a { w with vars := vs } := by
    refine (hframes.kept fun B hB => harm.keeps (by simpa using hat.symm) hB).kept fun B hB => ?_
    exact harm'.keeps (by simpa using haf.symm) hB
  have hmerged {x : I.Value} {vs' : I.Variables} {σ' : I.State} {y' : (I.machine L).Point} {d₀ : BlockId}
      (hd : d₀ ∈ [d, d']) (hvs : vs.Same vs') (hy' : t₇.graph.Yields d₀
        { w with vars := vs', operands := w.operands ++ [x] } before σ' none y') :
      ∃ k z, L.graph.Goes k y' z ∧
        Gives L { s₆ with toBuilder := t₁₀ } c w before t x vs' σ' z := by
    obtain ⟨z, hgoes, hz⟩ := yields_merge (w := { w with vars := vs' }) hmerge hpop hcopy hL.graph
      hframes' rfl hvs.keeps hd hy'
    exact ⟨1, z, hgoes, .of_yields (hgives.1.trans hvs) hz t⟩
  cases side with
  | true =>
    refine (he.operand hv hfirst hpush hs₃ hL₅ hy₂).goesOn ?_
    rintro x vs' σ₃ y₃ ⟨hvs, hy₃⟩
    refine hmerged (by simp) hvs (hy₃.kept fun B hB => harm'.keeps ?_ hB)
    simp only [List.mem_singleton] at hfd ⊢
    exact Ne.symm hfd
  | false =>
    have hy₂' := hy₂.kept fun B hB => harm.keeps (by simpa using htf.symm) hB
    refine (he'.operand hv' hsecond hpush' hs₅ hL₇ hy₂').goesOn ?_
    rintro x vs' σ₃ y₃ ⟨hvs, hy₃⟩
    exact hmerged (by simp) hvs hy₃

mutual

theorem realizes_expr (hcalls : CallsSimulate L q n call) :
    (e : Expr) → e.Valued → Realizes L n q call e
  | .literal value t, _ => realizes_literal value t
  | .var name t, _ => realizes_var name t
  | .function f t, _ => realizes_function f t
  | .unary op a t, h => (realizes_expr hcalls a h.2).unary h.1 op t
  | .binary op a b t, h => (realizes_expr hcalls a h.1.2).binary (realizes_expr hcalls b h.2.2) h.1.1 h.2.1 op t
  | .logic op a b t, _ => realizes_logic op a b t
  | .cast op a t, h => (realizes_expr hcalls a h.2).cast h.1 op t
  | .field a index t, h => (realizes_expr hcalls a h.2).field h.1 index t
  | .assign a b t, h => (realizesPlace_expr hcalls a h.1).assign (realizes_expr hcalls b h.2.2) h.2.1 t
  | .compound op a b t, h => (realizesPlace_expr hcalls a h.1).compound (realizes_expr hcalls b h.2.2) h.2.1 op t
  | .step op a t, h => (realizesPlace_expr hcalls a h).step op t
  | .conditional c a b t, h => (realizes_expr hcalls c h.1.2).conditional (realizes_expr hcalls a h.2.1.2)
      (realizes_expr hcalls b h.2.2.2) h.1.1 h.2.1.1 h.2.2.1 t
  | .call a as t, h => (realizes_expr hcalls a h.1.2).application (realizesAll_exprs hcalls as h.2) hcalls h.1.1 t
  | .new k as t, h => (realizesAll_exprs hcalls as h).new k t
  | .newArray a t, h => (realizes_expr hcalls a h.2).newArray h.1 t
  | .native name as t, h => (realizesAll_exprs hcalls as h).native name t

theorem realizesAll_exprs (hcalls : CallsSimulate L q n call) :
    (es : List Expr) → areValued es → RealizesAll L n q call es
  | [], _ => realizesAll_nil
  | e :: es, h => (realizes_expr hcalls e h.1.2).all (realizesAll_exprs hcalls es h.2) h.1.1

theorem realizesPlace_expr (hcalls : CallsSimulate L q n call) :
    (e : Expr) → e.Valued → RealizesPlace L n q call e
  | .var name t, _ => realizesPlace_var name t
  | .field a index t, h => (realizes_expr hcalls a h.2).placeField h.1 index t
  | .binary .index a b t, h => (realizes_expr hcalls a h.1.2).placeElement (realizes_expr hcalls b h.2.2) h.1.1 h.2.1 t
  | .literal .., _ | .function .., _ | .unary .., _ | .logic .., _ | .cast .., _ | .assign .., _
  | .compound .., _ | .step .., _ | .conditional .., _ | .call .., _ | .new .., _ | .newArray .., _
  | .native .., _ | .binary (.compare _) .., _ | .binary (.numeric _) .., _
  | .binary (.shift _) .., _ | .binary .concat .., _ | .binary .identity .., _ => by
    intro b c form s s' w before σ y h
    simp [lowerAddress] at h

end

end Realizes

end BlockGraph.Lowering

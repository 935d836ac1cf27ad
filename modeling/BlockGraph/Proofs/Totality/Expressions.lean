import BlockGraph.Proofs.Totality.Calls

namespace BlockGraph.Lowering

open Builder Analysis

variable {D : Declared} {ls : List LoopFrame} {slot : Option ValueType}

theorem Ready.pushValue {s : State} {b : BlockId} {Γ : Context} {σ : List ValueType} {t : SourceType}
    (h : Ready D ls slot s b Γ σ) (hyields : Yields s b t) :
    Succeeds (liftM (Builder.pushLast b) : LowerM Unit) s fun _ s' =>
      ∃ vt, lowered? s' t = some vt ∧ After D ls slot s s' b Γ (σ ++ [vt]) := by
  obtain ⟨vt, hvt, hlast⟩ := hyields
  refine (h.pushLast hlast).imp ?_
  rintro _ s' - h'
  exact ⟨vt, h'.grows.lowered? t vt hvt, h'⟩

theorem Ready.lowerTarget {s : State} {b : BlockId} {Γ Γ' : Context} {σ : List ValueType}
    (h : Ready D ls slot s b Γ σ) {e : Expr} (he : checkTarget D Γ e = some Γ') :
    Succeeds (Lowering.lowerType e.type) s fun vt s' => After D ls slot s s' b Γ σ ∧
      lowered? s' e.type = some vt := by
  have hknown {t : SourceType} {vt : ValueType} (ht : lowered? s t = some vt) :
      Succeeds (Lowering.lowerType t) s fun vt s' => After D ls slot s s' b Γ σ ∧
        lowered? s' t = some vt :=
    ⟨vt, s, runs_lowerType_of_lowered? t vt ht, h.grow (.refl s) rfl fun _ hB => hB, ht⟩
  cases e with
  | var name t =>
    simp only [checkTarget, guard_bind_eq_some] at he
    obtain ⟨a, ha⟩ := Context.declares_iff.1 he.1
    obtain ⟨B, -, -, hholds⟩ := h.fits
    obtain ⟨x, -, hrep⟩ := hholds.get? ha
    exact hknown hrep.type
  | field object index t =>
    simp only [checkTarget, guard_bind_eq_some] at he
    obtain ⟨-, vt, -, hvt, -⟩ := h.knows.fieldType he.1
    exact hknown hvt
  | binary op left right t =>
    cases op with
    | index =>
      simp only [checkTarget, guard_bind_eq_some] at he
      refine (h.lowerType (.inr he.1.1)).imp ?_
      rintro vt s' - ⟨h', hvt, -⟩
      exact ⟨h', hvt⟩
    | _ => simp [checkTarget] at he
  | _ => simp [checkTarget] at he

theorem placeOf_canRead {Γ : Context} {e : Expr} (h : Γ.canRead e = true) :
    ∀ n, placeOf e = .var n → ⟨n, e.type, true⟩ ∈ Γ := by
  intro n hn
  cases e with
  | var name t =>
    obtain rfl : name = n := by simpa [placeOf] using hn
    exact of_decide_eq_true h
  | _ => simp [placeOf] at hn

mutual

theorem succeeds_lowerExpr {s : State} {b : BlockId} {Γ Γ' : Context} {σ : List ValueType} :
    (e : Expr) → Ready D ls slot s b Γ σ → checkExpr D Γ e = some Γ' →
      Succeeds (lowerExpr b e) s fun c s' => After D ls slot s s' c Γ' σ ∧
        (e.type.isVoid = false → Yields s' c e.type)
  | .literal value t, h, he => by
    simp only [checkExpr, guard_bind_eq_some] at he
    obtain ⟨ht, rfl⟩ : _ ∧ Γ = Γ' := ⟨he.1, Option.some.inj he.2⟩
    rw [lowerExpr]
    refine (h.lowerType (.inr ht)).bind ?_
    rintro vt s₁ - ⟨h₁, hvt, -⟩
    refine (h₁.ready.typed (.literal value) hvt rfl (by simp [Operation.operands]) trivial).bind ?_
    rintro _ s₂ - ⟨h₂, hyields⟩
    exact .pure ⟨.trans h₁.grows h₂, fun _ => hyields⟩
  | .var name t, h, he => by
    simp only [checkExpr, guard_bind_eq_some] at he
    obtain ⟨hname, rfl⟩ : _ ∧ Γ = Γ' := ⟨he.1, Option.some.inj he.2⟩
    rw [lowerExpr]
    refine (h.readSymbol hname).bind ?_
    rintro r s - ⟨rfl, vt, hvt, hr⟩
    refine (h.copy hr).bind ?_
    rintro _ s₁ - ⟨h₁, hlast⟩
    exact .pure ⟨h₁, fun _ => ⟨vt, h₁.grows.lowered? t vt hvt, hlast⟩⟩
  | .function f t, h, he => by
    simp only [checkExpr, guard_bind_eq_some] at he
    obtain ⟨ht, rfl⟩ : _ ∧ Γ = Γ' := ⟨he.1, Option.some.inj he.2⟩
    obtain ⟨e, E, hentry, hE, hvt⟩ := h.knows.functions f t ht
    rw [lowerExpr]
    refine Succeeds.bind (P := fun e' s' => e' = e ∧ s' = s)
      ⟨e, s, runs_functionEntry.2 ⟨hentry, rfl⟩, rfl, rfl⟩ ?_
    rintro _ _ - ⟨rfl, rfl⟩
    refine (h.emitRef hE).bind ?_
    rintro _ s₁ - ⟨h₁, hlast⟩
    exact .pure ⟨h₁, fun _ => ⟨_, h₁.grows.lowered? t _ hvt, hlast⟩⟩
  | .unary op operand t, h, he => by
    simp only [checkExpr, guard_bind_eq_some, asValue_eq_some] at he
    obtain ⟨ht, hvalue, hoperand⟩ := he
    rw [lowerExpr]
    refine (succeeds_lowerExpr operand h hoperand).bind ?_
    rintro c s₁ - ⟨h₁, hyields⟩
    refine (h₁.ready.pushValue (hyields hvalue)).bind ?_
    rintro _ s₂ - ⟨vt, -, h₂⟩
    refine (h₂.ready.applyLinear (.unary op) rfl ht (by simp)).bind ?_
    rintro _ s₃ - ⟨h₃, hyields⟩
    exact .pure ⟨.trans (h₁.grows.trans h₂.grows) h₃, fun _ => hyields⟩
  | .binary op left right t, h, he => by
    rw [checkExpr] at he
    simp only [↓guard_bind_eq_some, bind_eq_some, asValue_eq_some] at he
    obtain ⟨⟨ht, hindex⟩, Γ₁, ⟨hvalue, hleft⟩, hvalue', hright⟩ := he
    rw [lowerExpr]
    refine (succeeds_lowerExpr left h hleft).bind ?_
    rintro c s₁ - ⟨h₁, hyields⟩
    refine (h₁.ready.pushValue (hyields hvalue)).bind ?_
    rintro _ s₂ - ⟨vt, hvt, h₂⟩
    refine (succeeds_lowerExpr right h₂.ready hright).bind ?_
    rintro d s₃ - ⟨h₃, hyields⟩
    refine (h₃.ready.pushValue (hyields hvalue')).bind ?_
    rintro _ s₄ - ⟨vt', -, h₄⟩
    have hready := h₄.ready
    rw [List.append_assoc] at hready
    refine (hready.applyLinear (.binary op) rfl ht fun hop => ?_).bind ?_
    · rw [hindex (LinearOp.binary.inj hop)] at hvt
      obtain ⟨u, hu, rfl⟩ := lowered?_array.1 hvt
      exact ⟨u, (h₃.grows.trans h₄.grows).lowered? t u hu, rfl⟩
    rintro _ s₅ - ⟨h₅, hyields⟩
    exact .pure ⟨.trans (((h₁.grows.trans h₂.grows).trans h₃.grows).trans h₄.grows) h₅,
      fun _ => hyields⟩
  | .logic op left right t, h, he => by simp [checkExpr] at he
  | .cast op operand t, h, he => by
    simp only [checkExpr, guard_bind_eq_some, asValue_eq_some] at he
    obtain ⟨⟨ht, hup, hdown⟩, hvalue, hoperand⟩ := he
    rw [lowerExpr]
    have hop : expectValueCast op = .ok () := by
      cases op <;> first | rfl | contradiction
    refine (Succeeds.lift_except_lower (Q := fun _ s' => s' = s) hop rfl).bind ?_
    rintro _ s - rfl
    refine (succeeds_lowerExpr operand h hoperand).bind ?_
    rintro c s₁ - ⟨h₁, hyields⟩
    obtain ⟨vt, -, hlast⟩ := hyields hvalue
    refine (Ready.lastRegister hlast).bind ?_
    rintro r s₁ - ⟨rfl, hr⟩
    refine (h₁.ready.lowerType (.inr ht)).bind ?_
    rintro vt' s₂ - ⟨h₂, hvt, -⟩
    refine (h₂.ready.typed (.cast op r) hvt rfl ?_ (by cases op <;> trivial)).bind ?_
    · simpa [Operation.operands] using ⟨vt, hr.extend h₂.grows.graph⟩
    rintro _ s₃ - ⟨h₃, hyields⟩
    exact .pure ⟨.trans (h₁.grows.trans h₂.grows) h₃, fun _ => hyields⟩
  | .field object index t, h, he => by
    simp only [checkExpr, guard_bind_eq_some, asValue_eq_some] at he
    obtain ⟨ht, hvalue, hobject⟩ := he
    rw [lowerExpr]
    refine (succeeds_lowerExpr object h hobject).bind ?_
    rintro c s₁ - ⟨h₁, hyields⟩
    obtain ⟨vt, hvt, hlast⟩ := hyields hvalue
    obtain ⟨l, ft, hl, hft, hfield⟩ := h₁.ready.knows.fieldType ht
    obtain rfl := Option.some.inj (hvt.symm.trans hl)
    refine (Ready.lastRegister hlast).bind ?_
    rintro r s₁ - ⟨rfl, hr⟩
    refine (Ready.expectObject hr).bind ?_
    rintro _ s₁ - rfl
    refine (Ready.lowerKnown hft).bind ?_
    rintro _ s₁ - ⟨rfl, rfl⟩
    refine (h₁.ready.typed (.getField r index) hft rfl ?_ ⟨l, hr, hfield⟩).bind ?_
    · simpa [Operation.operands] using ⟨_, hr⟩
    rintro _ s₂ - ⟨h₂, hyields⟩
    exact .pure ⟨.trans h₁.grows h₂, fun _ => hyields⟩
  | .assign target value t, h, he => by
    rw [checkExpr] at he
    simp only [↓guard_bind_eq_some, bind_eq_some, asValue_eq_some] at he
    obtain ⟨⟨rfl, htype⟩, Γ₁, htarget, Γ₂, ⟨hvalue, hexpr⟩, hend⟩ := he
    obtain rfl := Option.some.inj hend
    rw [lowerExpr]
    refine (succeeds_lowerAddress target h htarget).bind ?_
    rintro ⟨c, place⟩ s₁ - ⟨hplace, τ, vt, h₁, hut, haddress⟩
    obtain rfl : place = placeOf target := hplace
    refine (succeeds_lowerExpr value h₁.ready hexpr).bind ?_
    rintro d s₂ - ⟨h₂, hyields⟩
    obtain ⟨vt', hvt, hlast⟩ := hyields hvalue
    obtain rfl : vt' = vt := by
      rw [htype] at hvt
      exact Option.some.inj (hvt.symm.trans (h₂.grows.lowered? _ vt hut))
    have haddress := haddress.keep h₂.grows.layouts
    refine (Ready.lastRegister hlast).bind ?_
    rintro r s₂ - ⟨rfl, hr⟩
    have hstored : ∀ n u, target = .var n u → lowered? s₂ u = some vt' ∧ Γ₂.declares n u = true := by
      rintro n u rfl
      rw [htype] at hvt
      exact ⟨hvt, (checkExpr_le value hexpr).declares (declares_of_checkTarget htarget)⟩
    have hgrow := h₁.grows.trans h₂.grows
    have helse : Succeeds (do
        store d (placeOf target) r
        let _ ← copy d r
        return d : LowerM BlockId) s₂ fun c s' => After D ls slot s s' c (Γ₂.assignTo target) σ ∧
          (target.type.isVoid = false → Yields s' c target.type) := by
      refine (h₂.ready.store haddress hr hstored).bind ?_
      rintro _ s₃ - h₃
      refine (h₃.ready.copy (hr.extend h₃.grows.graph)).bind ?_
      rintro _ s₄ - ⟨h₄, hlast⟩
      refine .pure ⟨.trans (hgrow.trans h₃.grows) h₄, fun _ => ⟨vt', ?_, hlast⟩⟩
      rw [← htype]
      exact (h₃.grows.trans h₄.grows).lowered? _ vt' hvt
    cases target with
    | var n u =>
      obtain ⟨hu, hn⟩ := hstored n u rfl
      have hready := h₂.ready
      cases haddress
      rw [List.append_nil] at hready
      refine (hready.rebind hn hu hr).bind ?_
      rintro _ s₃ - ⟨h₃, hkeep⟩
      exact .pure ⟨.trans hgrow h₃, fun _ => ⟨vt', h₃.grows.lowered? u vt' hu, hkeep vt' hlast⟩⟩
    | _ => exact helse
  | .compound op target value t, h, he => by
    rw [checkExpr] at he
    simp only [↓guard_bind_eq_some, bind_eq_some, asValue_eq_some] at he
    obtain ⟨rfl, Γ₁, htarget, hread, hvalue, hexpr⟩ := he
    rw [lowerExpr]
    refine (h.lowerTarget htarget).bind ?_
    rintro vt s₁ - ⟨h₁, hvt⟩
    refine (succeeds_lowerAddress target h₁.ready htarget).bind ?_
    rintro ⟨c, place⟩ s₂ - ⟨hplace, τ, ut, h₂, hut, haddress⟩
    obtain rfl : place = placeOf target := hplace
    have hvt₂ := h₂.grows.lowered? _ vt hvt
    obtain rfl := Option.some.inj (hut.symm.trans hvt₂)
    refine (h₂.ready.load haddress hvt₂ (placeOf_canRead hread)).bind ?_
    rintro _ s₃ - ⟨h₃, hlast⟩
    refine (h₃.ready.pushLast hlast).bind ?_
    rintro _ s₄ - h₄
    refine (succeeds_lowerExpr value h₄.ready hexpr).bind ?_
    rintro d s₅ - ⟨h₅, hyields⟩
    refine (h₅.ready.pushValue (hyields hvalue)).bind ?_
    rintro _ s₆ - ⟨vt', -, h₆⟩
    have hgrow := ((h₃.grows.trans h₄.grows).trans h₅.grows).trans h₆.grows
    have hvt₆ := hgrow.lowered? _ ut hvt₂
    have hle := checkExpr_le value hexpr
    have hready := h₆.ready
    rw [List.append_assoc (σ ++ τ)] at hready
    refine (hready.update (haddress.keep hgrow.layouts) op.toBinary_ne_index ?_).bind ?_
    · rintro n u rfl
      exact ⟨hvt₆, hle.declares (declares_of_checkTarget htarget)⟩
    rintro _ s₇ - ⟨h₇, hlast⟩
    rw [Context.assignTo_of_canRead h₅.ready.fits.holds.distinct (hle.canRead hread)] at h₇
    exact .pure ⟨.trans ((h₁.grows.trans h₂.grows).trans hgrow) h₇,
      fun _ => ⟨ut, h₇.grows.lowered? _ ut hvt₆, hlast⟩⟩
  | .step op target t, h, he => by
    rw [checkExpr] at he
    simp only [↓guard_bind_eq_some, bind_eq_some] at he
    obtain ⟨⟨rfl, hnum⟩, Γ₁, htarget, hread, hend⟩ := he
    obtain rfl := Option.some.inj hend
    rw [lowerExpr]
    refine (h.lowerTarget htarget).bind ?_
    rintro vt s₁ - ⟨h₁, hvt⟩
    refine (succeeds_lowerAddress target h₁.ready htarget).bind ?_
    rintro ⟨c, place⟩ s₂ - ⟨hplace, τ, ut, h₂, hut, haddress⟩
    obtain rfl : place = placeOf target := hplace
    have hvt₂ := h₂.grows.lowered? _ vt hvt
    obtain rfl := Option.some.inj (hut.symm.trans hvt₂)
    refine (h₂.ready.load haddress hvt₂ (placeOf_canRead hread)).bind ?_
    rintro _ s₃ - ⟨h₃, hlast⟩
    refine (h₃.ready.pushLast hlast).bind ?_
    rintro _ s₄ - h₄
    have hgrow := h₃.grows.trans h₄.grows
    refine (h₄.ready.emitOne hnum (hgrow.lowered? _ ut hvt₂)).bind ?_
    rintro _ s₅ - ⟨h₅, hlast⟩
    refine (h₅.ready.pushLast hlast).bind ?_
    rintro _ s₆ - h₆
    have hgrow := (hgrow.trans h₅.grows).trans h₆.grows
    have hvt₆ := hgrow.lowered? _ ut hvt₂
    have hready := h₆.ready
    rw [List.append_assoc (σ ++ τ)] at hready
    refine (hready.update (haddress.keep hgrow.layouts) op.toBinary_ne_index ?_).bind ?_
    · rintro n u rfl
      exact ⟨hvt₆, declares_of_checkTarget htarget⟩
    rintro _ s₇ - ⟨h₇, hlast⟩
    rw [Context.assignTo_of_canRead h₅.ready.fits.holds.distinct hread] at h₇
    exact .pure ⟨.trans ((h₁.grows.trans h₂.grows).trans hgrow) h₇,
      fun _ => ⟨ut, h₇.grows.lowered? _ ut hvt₆, hlast⟩⟩
  | .conditional condition first second t, h, he => by
    rw [checkExpr] at he
    simp only [↓guard_bind_eq_some, bind_eq_some, asValue_eq_some] at he
    obtain ⟨⟨hbool, rfl, htype⟩, Γ₁, hcond, Γ₂, ⟨hvoid, hfirst⟩, Γ₃, ⟨hvoid', hsecond⟩, hend⟩ := he
    obtain rfl := Option.some.inj hend
    rw [lowerExpr]
    refine (succeeds_lowerExpr condition h hcond).bind ?_
    rintro c s₁ - ⟨h₁, hyields⟩
    rw [hbool] at hyields
    obtain ⟨_, -, hlast⟩ := hyields rfl
    refine (Ready.lastRegister hlast).bind ?_
    rintro r s₁ - ⟨rfl, hr⟩
    refine (h₁.ready.branch hr).bind ?_
    rintro ⟨onTrue, onFalse⟩ s₂ - ⟨⟨hne, hne', hsides⟩, hbefore, h₂, h₂', -⟩
    refine (succeeds_lowerExpr first h₂.ready hfirst).bind ?_
    rintro first' s₃ hrun ⟨h₃, hyields⟩
    refine (h₃.ready.pushValue (hyields hvoid)).bind ?_
    rintro _ s₄ hpush ⟨vt, hvt, h₄⟩
    -- the other side, and the block before both, are as they were
    have harm : Rebuilds [onTrue] s₂ [first'] s₄ :=
      (leads_lowerExpr onTrue first hrun).trans (leads_lift stays_pushLast hpush)
    have hbuild := h₃.grows.trans h₄.grows
    have h₄' := h₂'.ready.grow hbuild harm.loops fun _ => harm.keeps (by simpa using hsides.symm)
    have hbefore := hbefore.mono harm.grows.lowered? fun _ => harm.keeps (by simpa using hne.symm)
    refine (succeeds_lowerExpr second h₄'.ready hsecond).bind ?_
    rintro second' s₅ hrun' ⟨h₅, hyields'⟩
    refine (h₅.ready.pushValue (hyields' hvoid')).bind ?_
    rintro _ s₆ hpush' ⟨vt', hvt', h₆⟩
    have harm' : Rebuilds [onFalse] s₄ [second'] s₆ :=
      (leads_lowerExpr onFalse second hrun').trans (leads_lift stays_pushLast hpush')
    obtain rfl : vt = vt' := by
      rw [htype] at hvt'
      exact Option.some.inj ((harm'.grows.lowered? _ vt hvt).symm.trans hvt')
    have hbefore := hbefore.mono harm'.grows.lowered? fun _ => harm'.keeps (by simpa using hne'.symm)
    obtain ⟨F, hF, -⟩ := h₄.ready.fits
    have hfirst' : first' ∉ [onFalse] := by
      obtain ⟨G, hG, -⟩ := h₂'.ready.fits
      simpa [eq_comm] using harm.apart (by simpa using hsides.symm) hG
    have hbuild' := h₅.grows.trans h₆.grows
    have h₆' := h₄.ready.grow hbuild' harm'.loops fun _ => harm'.keeps hfirst'
    have hnodup : [first', second'].Nodup := by simpa using harm'.apart hfirst' hF
    refine (h₆.ready.knows.converge h₆.ready.loops hbefore hnodup (.cons ⟨h₆'.ready.fits, checkExpr_le first hfirst⟩
      (.cons ⟨h₆.ready.fits, checkExpr_le second hsecond⟩ .nil)) (by simp)).bind ?_
    rintro d s₇ - ⟨h₇, -⟩
    refine h₇.ready.pop.bind ?_
    rintro r s₈ - ⟨h₈, hr⟩
    refine (h₈.ready.copy hr).bind ?_
    rintro _ s₉ - ⟨h₉, hlast⟩
    have hgrow := ((h₆'.grows.trans h₇.grows).trans h₈.grows).trans h₉.grows
    exact .pure ⟨⟨(((h₁.grows.trans h₂.grows).trans hbuild).trans hgrow), h₉.ready⟩,
      fun _ => ⟨vt, hgrow.lowered? _ vt hvt, hlast⟩⟩
  | .call callee arguments t, h, he => by
    rw [checkExpr] at he
    simp only [↓guard_bind_eq_some, bind_eq_some] at he
    obtain ⟨htype, Γ₁, hcallee, hargs⟩ := he
    rw [lowerExpr]
    refine (succeeds_lowerExpr callee h hcallee).bind ?_
    rintro c s₁ - ⟨h₁, hyields⟩
    rw [htype] at hyields
    refine (h₁.ready.pushValue (hyields rfl)).bind ?_
    rintro _ s₂ - ⟨vt, hvt, h₂⟩
    simp only [lowered?, Option.bind_eq_some_iff, Option.map_eq_some_iff] at hvt
    obtain ⟨rt, hrt, l, hl, ps, hps, rfl⟩ := hvt
    refine (succeeds_lowerOperands arguments h₂.ready hargs).bind ?_
    rintro d s₃ - ⟨τ, h₃, hτ⟩
    obtain rfl := Option.some.inj ((h₃.grows.loweredAll? _ ps hps).symm.trans hτ)
    have hlen : ps.length = arguments.length := by
      simpa using (loweredAll?_eq_some.1 hτ).length_eq.symm
    refine (h₃.ready.lowerCall hlen (h₃.grows.lowered? t rt hrt) (h₃.grows.returns rt l hl)).imp ?_
    rintro e s₄ - ⟨h₄, hyields⟩
    exact ⟨.trans ((h₁.grows.trans h₂.grows).trans h₃.grows) h₄, hyields⟩
  | .new k arguments t, h, he => by
    simp only [checkExpr, guard_bind_eq_some] at he
    obtain ⟨⟨rfl, hfields⟩, hargs⟩ := he
    obtain ⟨l, L, hl, hL, hlowered⟩ := h.knows.fields k _ hfields
    have hcount : L.fields.length = arguments.length := by
      simpa using (loweredAll?_eq_some.1 hlowered).length_eq.symm
    rw [lowerExpr]
    refine (Ready.constructed hl hL hcount).bind ?_
    rintro l s - ⟨rfl, rfl⟩
    refine (succeeds_lowerOperands arguments h hargs).bind ?_
    rintro c s₁ - ⟨τ, h₁, hτ⟩
    obtain rfl := Option.some.inj ((h₁.grows.loweredAll? _ _ hlowered).symm.trans hτ)
    rw [← hcount]
    refine (h₁.ready.construct (h₁.grows.layouts l L hL)).bind ?_
    rintro _ s₂ - ⟨h₂, hlast⟩
    have hk : lowered? s (.object k) = some (.object l) := by rw [lowered?, hl]; rfl
    exact .pure ⟨.trans h₁.grows h₂, fun _ => ⟨_, (h₁.grows.trans h₂.grows).lowered? _ _ hk, hlast⟩⟩
  | .newArray length t, h, he => by
    simp only [checkExpr, guard_bind_eq_some, asValue_eq_some] at he
    obtain ⟨ht, hvalue, hlength⟩ := he
    rw [lowerExpr]
    refine (succeeds_lowerExpr length h hlength).bind ?_
    rintro c s₁ - ⟨h₁, hyields⟩
    obtain ⟨vt, -, hlast⟩ := hyields hvalue
    refine (Ready.lastRegister hlast).bind ?_
    rintro r s₁ - ⟨rfl, hr⟩
    refine (h₁.ready.lowerType (.inr ht)).bind ?_
    rintro vt' s₂ - ⟨h₂, hvt, -⟩
    refine (h₂.ready.typed (.newArray r) hvt rfl ?_ trivial).bind ?_
    · simpa [Operation.operands] using ⟨vt, hr.extend h₂.grows.graph⟩
    rintro _ s₃ - ⟨h₃, hyields⟩
    exact .pure ⟨.trans (h₁.grows.trans h₂.grows) h₃, fun _ => hyields⟩
  | .native name arguments t, h, he => by
    simp only [checkExpr, guard_bind_eq_some] at he
    obtain ⟨ht, hargs⟩ := he
    rw [lowerExpr]
    refine (succeeds_lowerOperands arguments h hargs).bind ?_
    rintro c s₁ - ⟨τ, h₁, hτ⟩
    have hlen : τ.length = arguments.length := by
      simpa using (loweredAll?_eq_some.1 hτ).length_eq.symm
    refine (h₁.ready.popMany hlen).bind ?_
    rintro rs s₂ - ⟨h₂, hrs⟩
    refine (h₂.ready.lowerType ht).bind ?_
    rintro vt s₃ - ⟨h₃, hvt, -⟩
    refine (h₃.ready.typed (.native name rs) hvt rfl (fun r hr => ?_) trivial).bind ?_
    · obtain ⟨n, hn, rfl⟩ := List.mem_iff_getElem.1 hr
      exact ⟨_, (hrs.get hn (hrs.length_eq ▸ hn)).extend h₃.grows.graph⟩
    rintro _ s₄ - ⟨h₄, hyields⟩
    exact .pure ⟨.trans ((h₁.grows.trans h₂.grows).trans h₃.grows) h₄, fun _ => hyields⟩

theorem succeeds_lowerOperands {s : State} {b : BlockId} {Γ Γ' : Context} {σ : List ValueType} :
    (es : List Expr) → Ready D ls slot s b Γ σ → checkValues D Γ es = some Γ' →
      Succeeds (lowerOperands b es) s fun c s' => ∃ τ, After D ls slot s s' c Γ' (σ ++ τ) ∧
        loweredAll? s' (es.map (·.type)) = some τ
  | [], h, he => by
    obtain rfl := Option.some.inj he
    rw [lowerOperands]
    refine .pure ⟨[], ?_, rfl⟩
    rw [List.append_nil]
    exact h.grow (.refl s) rfl fun _ hB => hB
  | e :: es, h, he => by
    simp only [checkValues, bind_eq_some, asValue_eq_some] at he
    obtain ⟨Γ₁, ⟨hvalue, he⟩, hes⟩ := he
    rw [lowerOperands]
    refine (succeeds_lowerExpr e h he).bind ?_
    rintro c s₁ - ⟨h₁, hyields⟩
    refine (h₁.ready.pushValue (hyields hvalue)).bind ?_
    rintro _ s₂ - ⟨vt, hvt, h₂⟩
    refine (succeeds_lowerOperands es h₂.ready hes).imp ?_
    rintro d s₃ - ⟨τ, h₃, hτ⟩
    have h₃' := h₃
    rw [List.append_assoc] at h₃'
    refine ⟨vt :: τ, .trans (h₁.grows.trans h₂.grows) h₃', ?_⟩
    simp [loweredAll?, h₃.grows.lowered? e.type vt hvt, hτ]

theorem succeeds_lowerAddress {s : State} {b : BlockId} {Γ Γ' : Context} {σ : List ValueType} :
    (e : Expr) → Ready D ls slot s b Γ σ → checkTarget D Γ e = some Γ' →
      Succeeds (lowerAddress b e) s fun p s' => p.2 = placeOf e ∧
        ∃ τ vt, After D ls slot s s' p.1 Γ' (σ ++ τ) ∧ lowered? s' e.type = some vt ∧
          Addresses s'.graph (placeOf e) τ vt
  | .var name t, h, he => by
    simp only [checkTarget, guard_bind_eq_some] at he
    obtain ⟨hname, rfl⟩ : _ ∧ Γ = Γ' := ⟨he.1, Option.some.inj he.2⟩
    obtain ⟨a, ha⟩ := Context.declares_iff.1 hname
    obtain ⟨B, -, -, hholds⟩ := h.fits
    obtain ⟨x, -, hrep⟩ := hholds.get? ha
    rw [lowerAddress]
    refine .pure ⟨rfl, [], x.type, ?_, hrep.type, .var name _⟩
    rw [List.append_nil]
    exact h.grow (.refl s) rfl fun _ hB => hB
  | .field object index t, h, he => by
    simp only [checkTarget, guard_bind_eq_some, asValue_eq_some] at he
    obtain ⟨ht, hvalue, hobject⟩ := he
    rw [lowerAddress]
    refine (succeeds_lowerExpr object h hobject).bind ?_
    rintro c s₁ - ⟨h₁, hyields⟩
    obtain ⟨vt, hvt, hlast⟩ := hyields hvalue
    obtain ⟨l, ft, hl, hft, hfield⟩ := h₁.ready.knows.fieldType ht
    obtain rfl := Option.some.inj (hvt.symm.trans hl)
    refine (Ready.lastRegister hlast).bind ?_
    rintro r s₁ - ⟨rfl, hr⟩
    refine (Ready.expectObject hr).bind ?_
    rintro _ s₁ - rfl
    refine (h₁.ready.pushLast hlast).bind ?_
    rintro _ s₂ - h₂
    exact .pure ⟨rfl, _, ft, .trans h₁.grows h₂, h₂.grows.lowered? t ft hft,
      .field (hfield.keep h₂.grows.layouts)⟩
  | .binary .index array index t, h, he => by
    rw [checkTarget] at he
    simp only [↓guard_bind_eq_some, bind_eq_some, asValue_eq_some] at he
    obtain ⟨⟨-, htype⟩, Γ₁, ⟨hvalue, harray⟩, hvalue', hindex⟩ := he
    rw [lowerAddress]
    refine (succeeds_lowerExpr array h harray).bind ?_
    rintro c s₁ - ⟨h₁, hyields⟩
    refine (h₁.ready.pushValue (hyields hvalue)).bind ?_
    rintro _ s₂ - ⟨vt, hvt, h₂⟩
    rw [htype] at hvt
    obtain ⟨ut, hut, rfl⟩ := lowered?_array.1 hvt
    refine (succeeds_lowerExpr index h₂.ready hindex).bind ?_
    rintro d s₃ - ⟨h₃, hyields⟩
    refine (h₃.ready.pushValue (hyields hvalue')).bind ?_
    rintro _ s₄ - ⟨vt', -, h₄⟩
    rw [List.append_assoc] at h₄
    exact .pure ⟨rfl, _, ut, .trans ((h₁.grows.trans h₂.grows).trans h₃.grows) h₄,
      (h₃.grows.trans h₄.grows).lowered? t ut hut, .element ut vt'⟩
  | .literal .., h, he | .function .., h, he | .unary .., h, he | .logic .., h, he
  | .cast .., h, he | .assign .., h, he | .compound .., h, he | .step .., h, he
  | .conditional .., h, he | .call .., h, he | .new .., h, he | .newArray .., h, he
  | .native .., h, he | .binary (.compare _) .., h, he | .binary (.numeric _) .., h, he
  | .binary (.shift _) .., h, he | .binary .concat .., h, he | .binary .identity .., h, he => by
    simp [checkTarget] at he

end

end BlockGraph.Lowering

import BlockGraph.Proofs.Safety.Calls

namespace BlockGraph.Lowering

open Builder

variable {s : State} {b : BlockId} {σ : Shape}

theorem safe_applyLinear (op : LinearOp) {t : SourceType} (hb : s.graph.Open b (σ.deeper op.arity)) :
    Safe (applyLinear b op t) s fun _ s' => s'.graph.Open b σ ∧ s'.graph.Valued b := by
  refine (tidies_lift (safe_popMany hb)).bind fun rs s₁ _ ⟨hb, hlen, hrs⟩ => ?_
  refine (safe_lowerType t).bind fun v s₂ hpres ⟨hv, hkeeps⟩ => ?_
  obtain ⟨o, ho, hops⟩ := Operation.linear_eq_ok hlen
  have hlinear : Safe (liftM (Operation.linear op rs) : LowerM Operation) s₂ _ :=
    safe_except fun e he => by simp [ho] at he
  refine hlinear.bind ?_
  rintro o' s' - ⟨rfl, ho'⟩
  obtain rfl := Except.ok.inj (ho.symm.trans ho')
  exact (tidies_lift (safe_inert (hb.kept (hkeeps b)) (fun r hr => (hrs r (hops ▸ hr)).mono hpres)
    (linear_isInert ho) hv)).bind fun r _ _ h => .pure ⟨h.1, r, h.2⟩

theorem safe_constructed {k : ClassId} {n : Nat} :
    Safe (constructed k n) s fun l s' => s' = s ∧ IsClass s.graph l := by
  refine safe_classLayout.bind ?_
  rintro l s' - ⟨rfl, hl⟩
  intro hs
  obtain ⟨L, hL, hname⟩ := hs.classes _ _ hl
  refine .run_bind (Runs.lift_build_iff.2 ⟨_, runs_layout.2 ⟨hL, rfl⟩, rfl⟩) ?_
  dsimp only
  split
  · exact Meets.bind (P := fun _ _ => False) (.throw rfl) fun _ _ _ h => h.elim
  · exact .pure ⟨hs, .refl _, rfl, L, hL, hname⟩

theorem expectValueCast_error {op : CastOp} {e : Fault} (h : expectValueCast op = .error e) :
    e.Excused := by
  unfold expectValueCast at h
  split at h
  · exact Except.error.inj h ▸ rfl
  · exact Except.error.inj h ▸ rfl
  · simp at h

mutual

theorem safe_lowerExpr {s : State} {σ : Shape} {b : BlockId} (hb : s.graph.Open b σ) :
    (e : Expr) → Safe (lowerExpr b e) s fun c s' => s'.graph.Open c σ ∧ s'.graph.Valued c
  | .literal value type => by
    rw [lowerExpr]
    refine (safe_lowerType type).bind fun v s₁ _ ⟨hv, hkeeps⟩ => ?_
    exact (tidies_lift (safe_inert (hb.kept (hkeeps b)) (by simp [Operation.operands]) rfl hv)).bind
      fun r _ _ h => .pure ⟨h.1, r, h.2⟩
  | .var name _ => by
    rw [lowerExpr]
    refine (safe_look (safe_readSymbol hb)).bind ?_
    rintro r s' - ⟨rfl, hr⟩
    exact (tidies_lift (safe_copy hb hr)).bind fun r _ _ h => .pure ⟨h.1, r, h.2⟩
  | .function id _ => by
    rw [lowerExpr]
    refine safe_functionEntry.bind ?_
    rintro e s' - ⟨rfl, he⟩
    intro hs
    have henters := hs.functions _ _ he
    exact (tidies_lift (safe_emitRef hb henters.1 henters.2)).bind
      (fun r _ _ h => .pure ⟨h.1, r, h.2⟩) hs
  | .unary op operand type => by
    rw [lowerExpr]
    refine (safe_lowerExpr hb operand).bind fun c s₁ _ ⟨hc, hv⟩ => ?_
    refine (tidies_lift (safe_pushLast hc hv)).bind fun _ s₂ _ hc => ?_
    exact (safe_applyLinear (.unary op) hc).bind fun _ _ _ h => .pure h
  | .binary op left right type => by
    rw [lowerExpr]
    refine (safe_lowerExpr hb left).bind fun c s₁ _ ⟨hc, hv⟩ => ?_
    refine (tidies_lift (safe_pushLast hc hv)).bind fun _ s₂ _ hc => ?_
    refine (safe_lowerExpr hc right).bind fun d s₃ _ ⟨hd, hv⟩ => ?_
    refine (tidies_lift (safe_pushLast hd hv)).bind fun _ s₄ _ hd => ?_
    exact (safe_applyLinear (.binary op) hd).bind fun _ _ _ h => .pure h
  | .logic _ _ _ _ => by
    rw [lowerExpr]
    exact .throw rfl
  | .cast op operand type => by
    rw [lowerExpr]
    refine (safe_except fun e he => expectValueCast_error he).bind ?_
    rintro _ s' - ⟨rfl, hop⟩
    refine (safe_lowerExpr hb operand).bind fun c s₁ _ ⟨hc, hv⟩ => ?_
    refine (safe_look (safe_lastRegister hc hv)).bind ?_
    rintro r s' - ⟨rfl, hr⟩
    refine (safe_lowerType type).bind fun v s₂ hpres ⟨hv, hkeeps⟩ => ?_
    exact (tidies_lift (safe_inert (hc.kept (hkeeps c))
      (by simpa [Operation.operands] using hr.mono hpres) (expectValueCast_isInert hop) hv)).bind
      fun r _ _ h => .pure ⟨h.1, r, h.2⟩
  | .field object index type => by
    rw [lowerExpr]
    refine (safe_lowerExpr hb object).bind fun c s₁ _ ⟨hc, hv⟩ => ?_
    refine (safe_look (safe_lastRegister hc hv)).bind ?_
    rintro r s' - ⟨rfl, hr⟩
    refine (safe_look (safe_expectObject hr)).bind ?_
    rintro _ s' - ⟨rfl, -⟩
    refine (safe_lowerType type).bind fun v s₂ hpres ⟨hv, hkeeps⟩ => ?_
    exact (tidies_lift (safe_inert (hc.kept (hkeeps c))
      (by simpa [Operation.operands] using hr.mono hpres) rfl hv)).bind
      fun r _ _ h => .pure ⟨h.1, r, h.2⟩
  | .assign target value _ => by
    rw [lowerExpr]
    refine (safe_lowerAddress hb target).bind fun ⟨c, place⟩ s₁ _ hc => ?_
    refine (safe_lowerExpr hc value).bind fun d s₂ _ ⟨hd, hv⟩ => ?_
    refine (safe_look (safe_lastRegister hd hv)).bind ?_
    rintro r s' - ⟨rfl, hr⟩
    refine (tidies_lift (safe_store hd hr)).bind fun _ s₃ hpres hstored => ?_
    have hr' := hr.mono hpres
    have hcopy := safe_copy hstored hr'
    cases place with
    | var name => exact .pure ⟨hstored, r, hr'⟩
    | field index => exact (tidies_lift hcopy).bind fun r _ _ h => .pure ⟨h.1, r, h.2⟩
    | element => exact (tidies_lift hcopy).bind fun r _ _ h => .pure ⟨h.1, r, h.2⟩
  | .compound op target value type => by
    rw [lowerExpr]
    refine (safe_lowerType type).bind fun v s₁ _ ⟨hv, hkeeps⟩ => ?_
    refine (safe_lowerAddress (hb.kept (hkeeps b)) target).bind fun ⟨c, place⟩ s₂ hpres₂ hc => ?_
    refine (tidies_lift (safe_load hc (hv.mono hpres₂))).bind fun _ s₃ hpres₃ ⟨hc, hval⟩ => ?_
    refine (tidies_lift (safe_pushLast hc hval)).bind fun _ s₄ hpres₄ hc => ?_
    refine (safe_lowerExpr hc value).bind fun d s₅ hpres₅ ⟨hd, hval⟩ => ?_
    refine (tidies_lift (safe_pushLast hd hval)).bind fun _ s₆ hpres₆ hd => ?_
    have hall := hpres₂.trans (hpres₃.trans (hpres₄.trans (hpres₅.trans hpres₆)))
    exact (tidies_lift (safe_update hd (hv.mono hall))).bind fun _ _ _ h => .pure h
  | .step op target type => by
    rw [lowerExpr]
    refine (safe_lowerType type).bind fun v s₁ _ ⟨hv, hkeeps⟩ => ?_
    refine (safe_lowerAddress (hb.kept (hkeeps b)) target).bind fun ⟨c, place⟩ s₂ hpres₂ hc => ?_
    refine (tidies_lift (safe_load hc (hv.mono hpres₂))).bind fun _ s₃ hpres₃ ⟨hc, hval⟩ => ?_
    refine (tidies_lift (safe_pushLast hc hval)).bind fun _ s₄ hpres₄ hc => ?_
    have hloaded := hpres₂.trans (hpres₃.trans hpres₄)
    refine (tidies_lift (safe_emitOne hc (hv.mono hloaded))).bind fun _ s₅ hpres₅ ⟨hc, hval⟩ => ?_
    refine (tidies_lift (safe_pushLast hc hval)).bind fun _ s₆ hpres₆ hc => ?_
    have hall := hloaded.trans (hpres₅.trans hpres₆)
    exact (tidies_lift (safe_update hc (hv.mono hall))).bind fun _ _ _ h => .pure h
  | .conditional condition first second _ => by
    rw [lowerExpr]
    refine (safe_lowerExpr hb condition).bind fun c s₁ _ ⟨hc, hv⟩ => ?_
    refine (safe_look (safe_lastRegister hc hv)).bind ?_
    rintro r s' - ⟨rfl, -⟩
    refine (tidies_lift (safe_branch hc)).bind ?_
    rintro ⟨onTrue, onFalse⟩ s₂ - ⟨hnodup, -, τ, hle, htrue, hfalse, -, hc⟩
    simp only [List.nodup_cons, List.mem_cons, List.not_mem_nil, or_false, not_or] at hnodup
    refine (safe_lowerExpr htrue first).run_bind fun d s₃ hfirst _ ⟨hd, hv⟩ => ?_
    refine (tidies_lift (safe_pushLast hd hv)).run_bind fun _ s₄ hpush _ hd => ?_
    -- an arm touches neither the other one nor the block before both
    have hmove : Rebuilds [onTrue] s₂ [d] s₄ :=
      (leads_lowerExpr onTrue first hfirst).trans (leads_lift stays_pushLast hpush)
    have hcTrue : c ∉ [onTrue] := by simpa using hnodup.1.1
    have hFalseTrue : onFalse ∉ [onTrue] := by simpa [eq_comm] using hnodup.2.1
    have hdFalse : d ∉ [onFalse] := by
      obtain ⟨F, hF, -⟩ := hfalse
      simpa [eq_comm] using hmove.apart hFalseTrue hF
    have hfalse := hfalse.kept fun _ => hmove.keeps hFalseTrue
    have hc := hc.kept fun _ => hmove.keeps hcTrue
    refine (safe_lowerExpr hfalse second).run_bind fun e s₅ hsecond _ ⟨he, hv⟩ => ?_
    refine (tidies_lift (safe_pushLast he hv)).run_bind fun _ s₆ hpush' _ he => ?_
    have hmove' : Rebuilds [onFalse] s₄ [e] s₆ :=
      (leads_lowerExpr onFalse second hsecond).trans (leads_lift stays_pushLast hpush')
    have hde : d ≠ e := by
      obtain ⟨D, hD, -⟩ := hd
      simpa using hmove'.apart hdFalse hD
    have hd := hd.kept fun _ => hmove'.keeps hdFalse
    have hc := hc.kept fun _ => hmove'.keeps (by simpa using hnodup.1.2)
    have harms : ∀ p ∈ [d, e], s₆.graph.Open p (τ.deeper 1) := by simpa using ⟨hd, he⟩
    refine (tidies_lift (safe_converge hc (by simp) (by simpa using hde) harms)).bind ?_
    rintro merged s₇ - ⟨-, -, hmerged, -⟩
    refine (tidies_lift (safe_pop hmerged)).bind fun r s₈ _ ⟨hmerged, hr⟩ => ?_
    exact (tidies_lift (safe_copy hmerged hr)).bind fun r _ _ h => .pure ⟨h.1.le hle, r, h.2⟩
  | .call callee arguments type => by
    rw [lowerExpr]
    refine (safe_lowerExpr hb callee).bind fun c s₁ _ ⟨hc, hv⟩ => ?_
    refine (tidies_lift (safe_pushLast hc hv)).bind fun _ s₂ _ hc => ?_
    exact (safe_lowerOperands hc arguments).bind fun d s₃ _ hd => safe_lowerCall hd
  | .new k arguments _ => by
    rw [lowerExpr]
    refine safe_constructed.bind ?_
    rintro l s' - ⟨rfl, hl⟩
    refine (safe_lowerOperands hb arguments).bind fun c s₁ hpres hc => ?_
    exact (tidies_lift (safe_construct hc (hl.mono hpres))).bind fun _ _ _ h => .pure h
  | .newArray length type => by
    rw [lowerExpr]
    refine (safe_lowerExpr hb length).bind fun c s₁ _ ⟨hc, hv⟩ => ?_
    refine (safe_look (safe_lastRegister hc hv)).bind ?_
    rintro r s' - ⟨rfl, hr⟩
    refine (safe_lowerType type).bind fun v s₂ hpres ⟨hv, hkeeps⟩ => ?_
    exact (tidies_lift (safe_inert (hc.kept (hkeeps c))
      (by simpa [Operation.operands] using hr.mono hpres) rfl hv)).bind
      fun r _ _ h => .pure ⟨h.1, r, h.2⟩
  | .native name arguments type => by
    rw [lowerExpr]
    refine (safe_lowerOperands hb arguments).bind fun c s₁ _ hc => ?_
    refine (tidies_lift (safe_popMany hc)).bind fun rs s₂ _ ⟨hc, _, hrs⟩ => ?_
    refine (safe_lowerType type).bind fun v s₃ hpres ⟨hv, hkeeps⟩ => ?_
    have hops : ∀ r ∈ (Operation.native name rs).operands, s₃.graph.Typed c r :=
      fun r hr => (hrs r hr).mono hpres
    exact (tidies_lift (safe_inert (hc.kept (hkeeps c)) hops rfl hv)).bind
      fun r _ _ h => .pure ⟨h.1, r, h.2⟩

theorem safe_lowerOperands {s : State} {σ : Shape} {b : BlockId} (hb : s.graph.Open b σ) :
    (es : List Expr) → Safe (lowerOperands b es) s fun c s' => s'.graph.Open c (σ.deeper es.length)
  | [] => by
    rw [lowerOperands]
    exact .pure hb
  | e :: es => by
    rw [lowerOperands]
    refine (safe_lowerExpr hb e).bind fun c s₁ _ ⟨hc, hv⟩ => ?_
    refine (tidies_lift (safe_pushLast hc hv)).bind fun _ s₂ _ hc => ?_
    refine (safe_lowerOperands hc es).imp fun d s₃ _ hd => ?_
    rwa [Shape.deeper_deeper, Nat.add_comm] at hd

theorem safe_lowerAddress {s : State} {σ : Shape} {b : BlockId} (hb : s.graph.Open b σ) :
    (e : Expr) → Safe (lowerAddress b e) s fun p s' => s'.graph.Open p.1 (σ.deeper p.2.depth)
  | .var name type => by
    rw [lowerAddress]
    exact .pure hb
  | .field object index type => by
    rw [lowerAddress]
    refine (safe_lowerExpr hb object).bind fun c s₁ _ ⟨hc, hv⟩ => ?_
    refine (safe_look (safe_lastRegister hc hv)).bind ?_
    rintro r s' - ⟨rfl, hr⟩
    refine (safe_look (safe_expectObject hr)).bind ?_
    rintro _ s' - ⟨rfl, -⟩
    exact (tidies_lift (safe_pushLast hc hv)).bind fun _ _ _ h => .pure h
  | .binary .index array index type => by
    rw [lowerAddress]
    refine (safe_lowerExpr hb array).bind fun c s₁ _ ⟨hc, hv⟩ => ?_
    refine (tidies_lift (safe_pushLast hc hv)).bind fun _ s₂ _ hc => ?_
    refine (safe_lowerExpr hc index).bind fun d s₃ _ ⟨hd, hv⟩ => ?_
    exact (tidies_lift (safe_pushLast hd hv)).bind fun _ _ _ h => .pure h
  | .literal .. | .function .. | .unary .. | .logic .. | .cast .. | .assign .. | .compound ..
  | .step .. | .conditional .. | .call .. | .new .. | .newArray .. | .native ..
  | .binary (.compare _) .. | .binary (.numeric _) .. | .binary (.shift _) .. | .binary .concat ..
  | .binary .identity .. => by
    simp only [lowerAddress]
    exact .throw rfl

end

end BlockGraph.Lowering

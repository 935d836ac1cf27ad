import BlockGraph.Proofs.Totality.Declarations

namespace BlockGraph.Lowering

open Builder Analysis

section Clauses

variable {D : Declared} {ls : List LoopFrame} {slot : Option ValueType} {s s' : State} {b : BlockId}
  {Γ Γ' : Context} {lowered : Option ValueType}

theorem Ready.define (h : Ready D ls slot s b Γ []) {n : String} (hn : ∀ v ∈ Γ, v.name ≠ n)
    {t : SourceType} {vt : ValueType} (hvt : lowered? s t = some vt) {r : Option Register}
    (hr : ∀ r', r = some r' → s.graph.HasType b r' vt) :
    Succeeds (liftM (define b n ⟨vt, r⟩) : LowerM Unit) s fun _ s' =>
      After D ls slot s s' b (Γ ++ [⟨n, t, r.isSome⟩]) [] := by
  obtain ⟨B, hB, hopen, hholds⟩ := h.fits
  obtain ⟨symbols, hdefine, hholds'⟩ := hholds.define hn hvt (r := r) fun r' hr' =>
    (hr r' hr').typeOf? hB
  have hrun : Runs (Builder.define b n ⟨vt, r⟩) s.toBuilder () _ :=
    runs_define.2 ⟨B, symbols, hB, hdefine, rfl⟩
  exact ⟨(), _, Runs.lift_build_iff.2 ⟨_, hrun, rfl⟩, h.relocate hB hholds'⟩

theorem succeeds_tell (e : Event) :
    Succeeds (liftM (tell e : BuildM Unit) : LowerM Unit) s fun _ s' => s' = s :=
  ⟨(), s, Runs.lift_build_iff.2 ⟨_, runs_tell.2 rfl, rfl⟩, rfl⟩

def Annotates (s : State) (type : Option SourceType) (lowered : Option ValueType) : Prop :=
  Option.Rel (fun t vt => lowered? s t = some vt) type lowered

theorem Annotates.mono {type : Option SourceType} (h : Annotates s type lowered) (hs : Grows s s') :
    Annotates s' type lowered := by
  cases h with
  | some ht => exact .some (hs.lowered? _ _ ht)
  | none => exact .none

theorem Annotates.clauseType {type : Option SourceType} (h : Annotates s type lowered)
    {name : String} {value : Expr} (htype : type = none ∨ type = some value.type) {vt : ValueType}
    (hvt : lowered? s value.type = some vt) :
    Succeeds (Lowering.clauseType lowered ⟨name, some value⟩) s fun vt' s' => s' = s ∧ vt' = vt := by
  cases h with
  | none => exact Ready.lowerKnown hvt
  | @some t u ht =>
    obtain rfl : t = value.type := by simpa using htype
    exact .pure ⟨rfl, Option.some.inj (ht.symm.trans hvt)⟩

theorem succeeds_lowerClauses {type : Option SourceType} (htype : Annotates s type lowered)
    {cs : List Clause} (h : Ready D ls slot s b Γ []) (hcheck : checkClauses D type Γ cs = some Γ') :
    Succeeds (lowerClauses lowered b cs) s fun c s' => After D ls slot s s' c Γ' [] ∧ Γ.Le Γ' := by
  induction cs generalizing s b Γ with
  | nil =>
    rw [checkClauses] at hcheck
    obtain rfl := Option.some.inj hcheck
    exact .pure ⟨⟨.refl s, h⟩, .refl Γ⟩
  | cons c rest ih =>
    obtain ⟨name, value⟩ := c
    -- both kinds of clauses end with the definition
    have hdefine {b₁ : BlockId} {s₁ : State} {Γ₁ : Context} {t : SourceType} {vt : ValueType}
        {r : Option Register} (h₁ : After D ls slot s s₁ b₁ Γ₁ []) (hle : Γ.Le Γ₁)
        (hname : ∀ v ∈ Γ₁, v.name ≠ name) (hvt : lowered? s₁ t = some vt)
        (hr : ∀ r', r = some r' → s₁.graph.HasType b₁ r' vt)
        (hrest : checkClauses D type (Γ₁ ++ [⟨name, t, r.isSome⟩]) rest = some Γ') :
        Succeeds (do
          (tell (.symbolDefined name vt b₁) : BuildM Unit)
          define b₁ name ⟨vt, r⟩
          lowerClauses lowered b₁ rest : LowerM BlockId) s₁ fun c s' =>
          After D ls slot s s' c Γ' [] ∧ Γ.Le Γ' := by
      refine (succeeds_tell _).bind ?_
      rintro _ s₂ - rfl
      refine (h₁.ready.define hname hvt hr).bind ?_
      rintro _ s₃ - h₃
      have hgrow := h₁.grows.trans h₃.grows
      refine (ih (htype.mono hgrow.toGrows) h₃.ready hrest).imp ?_
      rintro c s₄ - ⟨h₄, hle'⟩
      exact ⟨.trans hgrow h₄, (hle.trans (Γ₁.le_append _)).trans hle'⟩
    rw [lowerClauses]
    dsimp only
    cases value with
    | some value =>
      rw [checkClauses] at hcheck
      simp only [↓guard_bind_eq_some, bind_eq_some, asValue_eq_some] at hcheck
      obtain ⟨hguard, Γ₁, ⟨hvalue, hexpr⟩, hname, hrest⟩ := hcheck
      simp only [pure_bind]
      refine (succeeds_lowerExpr value h hexpr).bind ?_
      rintro c s₁ - ⟨h₁, hyields⟩
      obtain ⟨vt, hvt, hlast⟩ := hyields hvalue
      refine (Ready.lastRegister hlast).bind ?_
      rintro r s₁ - ⟨rfl, hr⟩
      refine ((htype.mono h₁.grows.toGrows).clauseType hguard hvt).bind ?_
      rintro vt s₁ - ⟨rfl, rfl⟩
      exact hdefine h₁ (checkExpr_le value hexpr) hname hvt (by simpa using hr) hrest
    | none =>
      rw [checkClauses] at hcheck
      simp only [↓guard_bind_eq_some, bind_eq_some] at hcheck
      obtain ⟨t, rfl, hname, hrest⟩ := hcheck
      obtain ⟨vt, rfl, hvt⟩ : ∃ vt, lowered = some vt ∧ lowered? s t = some vt := by
        cases htype with
        | some hvt => exact ⟨_, rfl, hvt⟩
      simp only [pure_bind]
      refine Succeeds.bind (.pure (Q := fun vt' s' => s' = s ∧ vt' = vt) ⟨rfl, rfl⟩) ?_
      rintro vt s - ⟨rfl, rfl⟩
      exact hdefine ⟨.refl s, h⟩ (.refl Γ) hname hvt (by simp) hrest

end Clauses

section Return

variable {D : Declared} {ls : List LoopFrame} {slot : Option ValueType} {s s' : State} {b : BlockId}
  {Γ : Context} {t : SourceType} {vt : ValueType}

theorem Ready.lowerReturnValue (h : Ready D ls slot s b Γ []) (hvt : lowered? s t = some vt)
    {value : Option Expr} (hcheck : checkReturn D (some t) Γ value = some ()) :
    Succeeds (Lowering.lowerReturnValue vt b value) s fun p s' => ∃ Γ',
      After D ls slot s s' p.1 Γ' [] ∧
        List.Forall₂ (s'.graph.HasType p.1) p.2.toList (if vt.isVoid then [] else [vt]) := by
  have hvoid := lowered?_isVoid hvt
  cases value with
  | none =>
    have hv : t.isVoid = true := by
      by_contra hv
      simp [checkReturn, guard, hv, failure] at hcheck
    rw [Lowering.lowerReturnValue]
    simp only [hvoid, hv, Bool.not_true, Bool.false_eq_true, if_false, if_true]
    exact .pure ⟨Γ, ⟨.refl s, h⟩, .nil⟩
  | some e =>
    rw [checkReturn] at hcheck
    simp only [↓guard_bind_eq_some, bind_eq_some, asValue_eq_some] at hcheck
    obtain ⟨rfl, Γ', ⟨hv, hexpr⟩, -⟩ := hcheck
    rw [Lowering.lowerReturnValue]
    simp only [hvoid, hv, Bool.false_eq_true, if_false]
    refine (succeeds_lowerExpr e h hexpr).bind ?_
    rintro c s₁ - ⟨h₁, hyields⟩
    obtain ⟨vt', hvt', hlast⟩ := hyields hv
    obtain rfl := Option.some.inj ((h₁.grows.lowered? _ vt hvt).symm.trans hvt')
    refine (Ready.lastRegister hlast).bind ?_
    rintro r s₁ - ⟨rfl, hr⟩
    exact .pure ⟨Γ', h₁, .cons hr .nil⟩

theorem Ready.returnSlot (h : Ready D ls (some vt) s b Γ []) :
    ∃ B r, s.graph.block? b = some B ∧ B.locals.returnSlot = some r ∧ B.typeOf? r = some vt := by
  obtain ⟨B, hB, -, hholds⟩ := h.fits
  have hslot := hholds.slot
  cases hr : B.locals.returnSlot with
  | none =>
    rw [hr] at hslot
    cases hslot
  | some r =>
    rw [hr] at hslot
    cases hslot with
    | cons htype _ => exact ⟨B, r, hB, hr, htype⟩

theorem runs_continuationType {s : Builder} {l : LayoutId}
    (hl : s.graph.layout? l = some (returning l vt)) :
    Runs (continuationType (.object l)) s (.blockRef (continuation l vt)) s := by
  rw [continuationType]
  exact Runs.bind_iff.2 ⟨_, s, runs_layout.2 ⟨hl, rfl⟩, Runs.pure_iff.2 ⟨rfl, rfl⟩⟩

theorem succeeds_lowerReturn {A : Around} {ks : List Loop} {value : Option Expr}
    (h : Standing A ks s b Γ) (hcheck : checkReturn A.declared A.result Γ value = some ()) :
    Succeeds (lowerReturn A.frame b value) s fun _ s' => Leaves A.slot ks Γ s' none none ks := by
  suffices hreturn : Succeeds (lowerReturn A.frame b value) s fun _ s' => s'.graph.HeapTyped by
    refine hreturn.imp fun _ s' hrun hheap => ⟨hheap, ?_, rfl, .never⟩
    exact h.loops.rebuild h.apart (rebuilds_lowerReturn hrun)
  obtain ⟨D, slot, frame, result⟩ := A
  obtain ⟨hknows, -, hheap, hframe, hfits, -, -, -⟩ := h
  have hready : Ready D s.loops slot s b Γ [] := ⟨hknows, rfl, hfits⟩
  dsimp only at hcheck hframe ⊢
  cases hframe with
  | program => simp [checkReturn] at hcheck
  | @function l name vt t ht hl =>
    rw [lowerReturn]
    refine (hready.lowerReturnValue ht hcheck).bind ?_
    rintro ⟨c, r⟩ s₁ - ⟨Γ', h₁, hvalue⟩
    dsimp only at hvalue h₁ ⊢
    obtain ⟨B, slot, hB, hslot, htype⟩ := h₁.ready.returnSlot
    have hL := h₁.ready.knows.returning vt l (h₁.grows.returns vt l hl)
    have hfield : s₁.graph.HasField l 0 (.blockRef (continuation l vt)) := ⟨_, hL, rfl⟩
    refine Succeeds.run_bind (Runs.lift_build_iff.2 ⟨_, runs_locals.2 ⟨B, hB, rfl, rfl⟩, rfl⟩) ?_
    rw [hslot]
    dsimp only
    refine Succeeds.run_bind (Runs.lift_build_iff.2 ⟨_, runs_typeOf.2 ⟨B, hB, htype, rfl⟩, rfl⟩) ?_
    refine Succeeds.run_bind (Runs.lift_build_iff.2 ⟨_, runs_continuationType hL, rfl⟩) ?_
    refine (h₁.ready.emit (.getField slot 0) _ rfl ?_ ⟨l, ⟨B, hB, htype⟩, hfield⟩).bind ?_
    · simpa [Operation.operands] using ⟨_, B, hB, htype⟩
    rintro target s₂ - ⟨h₂, -, htarget⟩
    refine (succeeds_tell _).bind ?_
    rintro _ s₂ - rfl
    obtain ⟨C, hC, hopen, -⟩ := h₂.ready.fits
    have htyped {r : Register} {t : ValueType} (hr : s₁.graph.HasType c r t) :
        C.typeOf? r = some t := (hr.extend h₂.grows.graph).typeOf? hC
    have hpass : C.Passes ⟨target, slot :: r.toList⟩ :=
      ⟨continuation l vt, htarget.typeOf? hC, .cons (htyped ⟨B, hB, htype⟩)
        (hvalue.imp fun _ _ => htyped)⟩
    exact ⟨(), _, Runs.lift_build_iff.2 ⟨_, runs_goto.2 ⟨C, hC, hopen, hpass, rfl⟩, rfl⟩,
      heapTyped_close ((h₁.grows.trans h₂.grows).heap hheap) hC hopen _⟩

end Return

end BlockGraph.Lowering

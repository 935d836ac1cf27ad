import BlockGraph.Proofs.Totality.Actions

namespace BlockGraph

namespace Operation

theorem linear_eq_ok {op : LinearOp} {rs : List Register} (h : rs.length = op.arity) :
    ∃ o, linear op rs = .ok o ∧ o.operands = rs := by
  cases op with
  | unary op =>
    obtain ⟨a, rfl⟩ := List.length_eq_one_iff.1 h
    exact ⟨_, rfl, rfl⟩
  | binary op =>
    obtain ⟨a, c, rfl⟩ := List.length_eq_two.1 h
    cases op <;> exact ⟨_, rfl, rfl⟩

theorem linear_accesses {g : Graph} {b : BlockId} {op : LinearOp} {rs : List Register}
    {o : Operation} {t : ValueType} (h : linear op rs = .ok o)
    (hindex : op = .binary .index → ∀ array ∈ rs.head?, g.HasType b array (.array t)) :
    g.Accesses b ⟨o, t⟩ := by
  unfold linear at h
  split at h <;> cases h
  case h_7.refl array index => exact hindex rfl array rfl
  all_goals trivial

end Operation

theorem CompoundOp.toBinary_ne_index (op : CompoundOp) : op.toBinary ≠ .index := by
  cases op <;> simp [toBinary]

theorem StepOp.toBinary_ne_index (op : StepOp) : op.toBinary ≠ .index := by
  cases op <;> simp [toBinary]

namespace Lowering

open Builder Analysis

variable {D : Declared} {ls : List LoopFrame} {slot : Option ValueType} {s s' : State} {b : BlockId}
  {Γ Γ' : Context} {σ τ : List ValueType} {r : Register} {t : SourceType} {vt vt' : ValueType}

inductive Addresses (g : Graph) : Place → List ValueType → ValueType → Prop
  | var (name : String) (vt : ValueType) : Addresses g (.var name) [] vt
  | field {l : LayoutId} {n : Nat} {vt : ValueType} (h : g.HasField l n vt) :
      Addresses g (.field n) [.object l] vt
  | element (vt it : ValueType) : Addresses g .element [.array vt, it] vt

theorem Addresses.keep {g g' : Graph} {place : Place} (h : Addresses g place τ vt)
    (hg : g.KeepsLayouts g') : Addresses g' place τ vt := by
  cases h with
  | var name vt => exact .var name vt
  | field h => exact .field (h.keep hg)
  | element vt it => exact .element vt it

def placeOf : Expr → Place
  | .var name _ => .var name
  | .field _ index _ => .field index
  | _ => .element

theorem Knows.classes (h : Knows D s) (c : ClassId) (hc : (D.fields? c).isSome = true) :
    ∃ l, s.classes[c.index]? = some l := by
  obtain ⟨ts, hts⟩ := Option.isSome_iff_exists.1 hc
  obtain ⟨l, -, hl, -⟩ := h.fields c ts hts
  exact ⟨l, hl⟩

theorem Knows.fieldType (h : Knows D s) {u : SourceType} {n : Nat}
    (ht : D.fieldType? u n = some t) : ∃ l vt, lowered? s u = some (.object l) ∧
      lowered? s t = some vt ∧ s.graph.HasField l n vt := by
  cases u with
  | object c =>
    simp only [Declared.fieldType?, Option.bind_eq_some_iff] at ht
    obtain ⟨ts, hts, hn⟩ := ht
    obtain ⟨l, L, hl, hL, hfields⟩ := h.fields c ts hts
    have hall := loweredAll?_eq_some.1 hfields
    obtain ⟨hlt, hget⟩ := List.getElem?_eq_some_iff.1 hn
    subst hget
    have hlt' := hall.length_eq ▸ hlt
    exact ⟨l, _, by simp [lowered?, hl], hall.get hlt hlt', L, hL, List.getElem?_eq_getElem hlt'⟩
  | _ => simp [Declared.fieldType?] at ht

namespace Ready

theorem settle {α : Type} {x : LowerM α} (h : Ready D ls slot s b Γ σ) (hx : Settles x) {a : α}
    (hrun : Runs x s a s') : After D ls slot s s' b Γ σ ∧
      ∀ c B, s.graph.block? c = some B → s'.graph.block? c = some B := by
  have hsettle := hx hrun
  have hkeeps : ∀ c B, s.graph.block? c = some B → s'.graph.block? c = some B :=
    fun c B hB => hsettle.shifts.keeps (by simp) hB
  exact ⟨h.grow (.of_settled hsettle) hsettle.loops (hkeeps b), hkeeps⟩

theorem lowerType (h : Ready D ls slot s b Γ σ) (ht : t.isVoid = true ∨ isValueType D t = true) :
    Succeeds (lowerType t) s fun vt s' => After D ls slot s s' b Γ σ ∧ lowered? s' t = some vt ∧
      ∀ c B, s.graph.block? c = some B → s'.graph.block? c = some B := by
  obtain ⟨vt, s', hrun⟩ := exists_runs_lowerType h.knows.classes t ht
  obtain ⟨hafter, hkeeps⟩ := h.settle (settles_lowerType t) hrun
  exact ⟨vt, s', hrun, hafter, lowered?_of_runs t vt hrun, hkeeps⟩

theorem lowerKnown (ht : lowered? s t = some vt) :
    Succeeds (Lowering.lowerType t) s fun vt' s' => s' = s ∧ vt' = vt :=
  ⟨vt, s, runs_lowerType_of_lowered? t vt ht, rfl, rfl⟩

theorem typed (h : Ready D ls slot s b Γ σ) (op : Operation) (ht : lowered? s t = some vt)
    (hop : op.isPlain = true) (hops : ∀ o ∈ op.operands, ∃ vt, s.graph.HasType b o vt)
    (hi : s.graph.Accesses b ⟨op, vt⟩) :
    Succeeds (liftM (Builder.emit b op vt) : LowerM Register) s fun _ s' =>
      After D ls slot s s' b Γ σ ∧ Yields s' b t := by
  refine (h.emit op vt hop hops hi).imp ?_
  rintro r s' - ⟨hafter, hlast, -⟩
  exact ⟨hafter, vt, hafter.grows.lowered? t vt ht, hlast⟩

theorem applyLinear (h : Ready D ls slot s b Γ (σ ++ τ)) (op : LinearOp) (hτ : τ.length = op.arity)
    (ht : isValueType D t = true)
    (hindex : op = .binary .index → ∃ vt, lowered? s t = some vt ∧ τ.head? = some (.array vt)) :
    Succeeds (applyLinear b op t) s fun _ s' => After D ls slot s s' b Γ σ ∧ Yields s' b t := by
  refine (h.popMany hτ).bind ?_
  rintro rs s₁ - ⟨h₁, hrs⟩
  refine (h₁.ready.lowerType (.inr ht)).bind ?_
  rintro vt s₂ - ⟨h₂, hvt, -⟩
  obtain ⟨o, ho, hoperands⟩ := Operation.linear_eq_ok (hrs.length_eq.trans hτ)
  refine (Succeeds.lift_except_lower (Q := fun o' s' => o' = o ∧ s' = s₂) ho ⟨rfl, rfl⟩).bind ?_
  rintro o s₂ - ⟨rfl, rfl⟩
  have hrs₂ := hrs.imp fun _ _ hr => hr.extend h₂.grows.graph
  refine (h₂.ready.typed o hvt (linear_isPlain ho) (fun r hr => ?_) ?_).bind ?_
  · rw [hoperands] at hr
    obtain ⟨n, hn, rfl⟩ := List.mem_iff_getElem.1 hr
    exact ⟨_, hrs₂.get hn (hrs₂.length_eq ▸ hn)⟩
  · refine Operation.linear_accesses ho fun hop array harray => ?_
    obtain ⟨vt', hvt', hhead⟩ := hindex hop
    have hvt₂ := (h₁.grows.trans h₂.grows).lowered? t vt' hvt'
    obtain rfl := Option.some.inj (hvt.symm.trans hvt₂)
    cases hrs₂ with
    | nil => simp at harray
    | cons hr _ =>
      obtain rfl := Option.some.inj harray
      obtain rfl := Option.some.inj hhead
      exact hr
  · rintro _ s₃ - ⟨h₃, hyields⟩
    exact .pure ⟨.trans (h₁.grows.trans h₂.grows) h₃, hyields⟩

theorem readSymbol (h : Ready D ls slot s b Γ σ) {n : String} (hn : ⟨n, t, true⟩ ∈ Γ) :
    Succeeds (liftM (readSymbol b n) : LowerM Register) s fun r s' =>
      s' = s ∧ ∃ vt, lowered? s t = some vt ∧ s.graph.HasType b r vt := by
  obtain ⟨B, hB, -, hholds⟩ := h.fits
  obtain ⟨r, vt, hget, hvt, hr⟩ := hholds.register? hn
  refine ⟨r, s, Runs.lift_build_iff.2 ⟨s.toBuilder, ?_, rfl⟩, rfl, vt, hvt, B, hB, hr⟩
  simp only [Lowering.readSymbol, Runs.bind_iff, runs_locals]
  exact ⟨_, _, ⟨B, hB, rfl, rfl⟩, by rw [hget]; exact Runs.pure_iff.2 ⟨rfl, rfl⟩⟩

theorem expectObject {l : LayoutId} (hr : s.graph.HasType b r (.object l)) :
    Succeeds (liftM (expectObject b r) : LowerM Unit) s fun _ s' => s' = s := by
  obtain ⟨B, hB, hr⟩ := hr
  refine ⟨(), s, Runs.lift_build_iff.2 ⟨s.toBuilder, ?_, rfl⟩, rfl⟩
  simp only [Lowering.expectObject, Runs.bind_iff, runs_typeOf]
  exact ⟨_, _, ⟨B, hB, hr, rfl⟩, Runs.pure_iff.2 ⟨rfl, rfl⟩⟩

theorem load (h : Ready D ls slot s b Γ (σ ++ τ)) {place : Place}
    (hplace : Addresses s.graph place τ vt) (hvt : lowered? s t = some vt)
    (hvar : ∀ n, place = .var n → ⟨n, t, true⟩ ∈ Γ) :
    Succeeds (liftM (load b place vt) : LowerM Unit) s fun _ s' =>
      After D ls slot s s' b Γ (σ ++ τ) ∧ s'.graph.Last b vt := by
  cases hplace with
  | var n vt =>
    refine .lift_bind ((h.readSymbol (hvar n rfl)).bind ?_)
    rintro r s - ⟨rfl, vt', hvt', hr⟩
    obtain rfl := Option.some.inj (hvt.symm.trans hvt')
    refine .lift_bind ((h.copy hr).bind ?_)
    rintro _ s₁ - h₁
    exact .lift_pure h₁
  | @field l index vt hfield =>
    refine .lift_bind ((h.peek (n := 0) rfl).bind ?_)
    rintro r s - ⟨rfl, hr⟩
    refine .lift_bind ((h.emit (.getField r index) vt rfl
      (by simpa [Operation.operands] using ⟨_, hr⟩) ⟨l, hr, hfield⟩).bind ?_)
    rintro _ s₁ - ⟨h₁, hlast, -⟩
    exact .lift_pure ⟨h₁, hlast⟩
  | element vt it =>
    refine .lift_bind ((h.peek (n := 1) rfl).bind ?_)
    rintro array s - ⟨rfl, harray⟩
    refine .lift_bind ((h.peek (n := 0) rfl).bind ?_)
    rintro index s - ⟨rfl, hindex⟩
    refine .lift_bind ((h.emit (.getIndex array index) vt rfl ?_ harray).bind ?_)
    · simpa [Operation.operands] using ⟨⟨_, harray⟩, _, hindex⟩
    · rintro _ s₁ - ⟨h₁, hlast, -⟩
      exact .lift_pure ⟨h₁, hlast⟩

theorem rebind (h : Ready D ls slot s b Γ σ) {n : String} (hn : Γ.declares n t = true)
    (hvt : lowered? s t = some vt) (hr : s.graph.HasType b r vt) :
    Succeeds (liftM (rebind b n r) : LowerM Unit) s fun _ s' =>
      After D ls slot s s' b (Γ.assign n) σ ∧ ∀ vt, s.graph.Last b vt → s'.graph.Last b vt := by
  obtain ⟨B, hB, -, hholds⟩ := h.fits
  obtain ⟨a, ha⟩ := Context.declares_iff.1 hn
  obtain ⟨symbols, hsymbols, hholds'⟩ := hholds.rebind ha hvt (hr.typeOf? hB)
  have hrun : Runs (Builder.rebind b n r) s.toBuilder () _ :=
    runs_rebind.2 ⟨B, symbols, hB, hsymbols, rfl⟩
  refine ⟨(), _, Runs.lift_build_iff.2 ⟨_, hrun, rfl⟩, h.relocate hB hholds', ?_⟩
  rintro vt' ⟨B', r', hB', hlast⟩
  obtain rfl := Option.some.inj (hB.symm.trans hB')
  exact ⟨_, r', updateBlock_self hB _, hlast⟩

theorem store (h : Ready D ls slot s b Γ (σ ++ τ)) {target : Expr}
    (hplace : Addresses s.graph (placeOf target) τ vt) (hr : s.graph.HasType b r vt)
    (hvar : ∀ n u, target = .var n u → lowered? s u = some vt ∧ Γ.declares n u = true) :
    Succeeds (liftM (store b (placeOf target) r) : LowerM Unit) s fun _ s' =>
      After D ls slot s s' b (Γ.assignTo target) σ := by
  have helement (hplace : Addresses s.graph .element τ vt) :
      Succeeds (liftM (Lowering.store b .element r) : LowerM Unit) s fun _ s' =>
        After D ls slot s s' b Γ σ := by
    cases hplace with
    | element vt it =>
      refine .lift_bind ((h.popMany rfl).bind ?_)
      rintro rs s₁ - ⟨h₁, hrs⟩
      obtain ⟨array, _, harray, hrest, rfl⟩ := List.forall₂_cons_right_iff.1 hrs
      obtain ⟨index, _, hindex, hnil, rfl⟩ := List.forall₂_cons_right_iff.1 hrest
      obtain rfl := List.forall₂_nil_right_iff.1 hnil
      have hr₁ := hr.extend h₁.grows.graph
      refine .lift_bind ((h₁.ready.emit (.setIndex array index r) _ rfl ?_ ⟨vt, harray, hr₁⟩).bind ?_)
      · simpa [Operation.operands] using ⟨⟨_, harray⟩, ⟨_, hindex⟩, vt, hr₁⟩
      · rintro _ s₂ - ⟨h₂, -⟩
        exact .lift_pure (.trans h₁.grows h₂)
  cases target with
  | var n u =>
    cases hplace with
    | var _ vt =>
      rw [List.append_nil] at h
      obtain ⟨hvt, hn⟩ := hvar n u rfl
      exact (h.rebind hn hvt hr).imp fun _ _ _ h' => h'.1
  | field object index u =>
    cases hplace with
    | @field l _ vt hfield =>
      refine .lift_bind (h.pop.bind ?_)
      rintro o s₁ - ⟨h₁, ho⟩
      have hr₁ := hr.extend h₁.grows.graph
      refine .lift_bind ((h₁.ready.emit (.setField o index r) _ rfl ?_
        ⟨l, vt, ho, hfield.keep h₁.grows.layouts, hr₁⟩).bind ?_)
      · simpa [Operation.operands] using ⟨⟨_, ho⟩, vt, hr₁⟩
      · rintro _ s₂ - ⟨h₂, -⟩
        exact .lift_pure (.trans h₁.grows h₂)
  | _ => exact helement hplace

theorem emitOne (h : Ready D ls slot s b Γ σ) (ht : isNumeric t = true)
    (hvt : lowered? s t = some vt) :
    Succeeds (liftM (emitOne b vt) : LowerM Unit) s fun _ s' =>
      After D ls slot s s' b Γ σ ∧ s'.graph.Last b vt := by
  obtain ⟨p, rfl⟩ : ∃ p, t = .prim p := by
    cases t with
    | prim p => exact ⟨p, rfl⟩
    | _ => simp [isNumeric] at ht
  obtain rfl : vt = .prim p := by simpa [lowered?, eq_comm] using hvt
  refine .lift_bind ((h.emit (.literal (.u8 1)) _ rfl (by simp [Operation.operands]) trivial).bind ?_)
  rintro one s₁ - ⟨h₁, hlast, hone⟩
  obtain ⟨op, hop, hnone, hup⟩ : ∃ op, oneCast (.prim p) = .ok op ∧ (op = none → p = .u8) ∧
      op ≠ some .upcast := by
    cases p <;> simp [isNumeric, oneCast] at ht ⊢
  refine .lift_bind ((Succeeds.lift_lift_except (Q := fun op' s' => op' = op ∧ s' = s₁) hop
    ⟨rfl, rfl⟩).bind ?_)
  rintro op s₁ - ⟨rfl, rfl⟩
  cases op with
  | none =>
    obtain rfl := hnone rfl
    exact .lift_pure ⟨h₁, hlast⟩
  | some op =>
    have hi : s₁.graph.Accesses b ⟨.cast op one, .prim p⟩ := by
      cases op <;> trivial
    refine .lift_bind ((h₁.ready.emit (.cast op one) _ rfl ?_ hi).bind ?_)
    · simpa [Operation.operands] using ⟨_, hone⟩
    · rintro _ s₂ - ⟨h₂, hlast, -⟩
      exact .lift_pure ⟨.trans h₁.grows h₂, hlast⟩

theorem update (h : Ready D ls slot s b Γ (σ ++ τ ++ [vt, vt'])) {target : Expr} {op : BinaryOp}
    {yieldsOld : Bool} (hplace : Addresses s.graph (placeOf target) τ vt) (hop : op ≠ .index)
    (hvar : ∀ n u, target = .var n u → lowered? s u = some vt ∧ Γ.declares n u = true) :
    Succeeds (liftM (update b (placeOf target) op vt yieldsOld) : LowerM Unit) s fun _ s' =>
      After D ls slot s s' b (Γ.assignTo target) σ ∧ s'.graph.Last b vt := by
  refine .lift_bind ((h.popMany rfl).bind ?_)
  rintro rs s₁ - ⟨h₁, hrs⟩
  obtain ⟨old, _, hold, hrest, rfl⟩ := List.forall₂_cons_right_iff.1 hrs
  obtain ⟨operand, _, hoperand, hnil, rfl⟩ := List.forall₂_cons_right_iff.1 hrest
  obtain rfl := List.forall₂_nil_right_iff.1 hnil
  have harity : [old, operand].length = (LinearOp.binary op).arity := rfl
  obtain ⟨o, ho, hoperands⟩ := Operation.linear_eq_ok harity
  refine .lift_bind ((Succeeds.lift_lift_except (Q := fun o' s' => o' = o ∧ s' = s₁) ho
    ⟨rfl, rfl⟩).bind ?_)
  rintro o s₁ - ⟨rfl, rfl⟩
  refine .lift_bind ((h₁.ready.emit o vt (linear_isPlain ho) ?_ ?_).bind ?_)
  · rw [hoperands]
    simpa using ⟨⟨vt, hold⟩, vt', hoperand⟩
  · exact Operation.linear_accesses ho fun heq => absurd (LinearOp.binary.inj heq) hop
  rintro new s₂ - ⟨h₂, -, hnew⟩
  have hplace₂ := hplace.keep (h₁.grows.trans h₂.grows).layouts
  refine .lift_bind ((h₂.ready.store hplace₂ hnew fun n u hu => ?_).bind ?_)
  · obtain ⟨hvt, hn⟩ := hvar n u hu
    exact ⟨(h₁.grows.trans h₂.grows).lowered? u vt hvt, hn⟩
  rintro _ s₃ - h₃
  have hlast : s₃.graph.HasType b (if yieldsOld then old else new) vt := by
    split
    · exact hold.extend (h₂.grows.trans h₃.grows).graph
    · exact hnew.extend h₃.grows.graph
  refine .lift_bind ((h₃.ready.copy hlast).bind ?_)
  rintro _ s₄ - ⟨h₄, hlast⟩
  exact .lift_pure ⟨.trans ((h₁.grows.trans h₂.grows).trans h₃.grows) h₄, hlast⟩

theorem storeFields (h : Ready D ls slot s b Γ σ) {l : LayoutId}
    (ho : s.graph.HasType b r (.object l)) {n : Nat} {rs : List Register}
    (hrs : List.Forall₂ (s.graph.HasType b) rs τ)
    (hfields : ∀ k vt, τ[k]? = some vt → s.graph.HasField l (n + k) vt) :
    Succeeds (liftM (storeFields b r n rs) : LowerM Unit) s fun _ s' =>
      After D ls slot s s' b Γ σ := by
  induction rs generalizing n s τ with
  | nil => exact .lift_pure (h.grow (.refl s) rfl fun _ hB => hB)
  | cons v vs ih =>
    obtain ⟨vt, τ, hv, hvs, rfl⟩ := List.forall₂_cons_left_iff.1 hrs
    refine .lift_bind ((h.emit (.setField r n v) _ rfl ?_ ⟨l, vt, ho, hfields 0 vt rfl, hv⟩).bind ?_)
    · simpa [Operation.operands] using ⟨⟨_, ho⟩, vt, hv⟩
    rintro _ s₁ - ⟨h₁, -⟩
    refine (ih h₁.ready (ho.extend h₁.grows.graph)
      (hvs.imp fun _ _ hr => hr.extend h₁.grows.graph) fun k u hk => ?_).imp ?_
    · rw [Nat.add_right_comm]
      exact (hfields (k + 1) u hk).keep h₁.grows.layouts
    · rintro _ s₂ - h₂
      exact .trans h₁.grows h₂

theorem constructed {k : ClassId} {l : LayoutId} {L : Layout} (hl : s.classes[k.index]? = some l)
    (hL : s.graph.layout? l = some L) {n : Nat} (hn : L.fields.length = n) :
    Succeeds (constructed k n) s fun l' s' => s' = s ∧ l' = l := by
  refine ⟨l, s, ?_, rfl, rfl⟩
  simp only [Lowering.constructed, Runs.bind_iff, runs_classLayout, Runs.lift_build_iff, runs_layout,
    Runs.ite_iff, Runs.pure_iff, Runs.throw_iff]
  exact ⟨l, s, ⟨hl, rfl⟩, L, s, ⟨_, ⟨hL, rfl⟩, rfl⟩, .inr ⟨by simp [hn], rfl, rfl⟩⟩

theorem construct {l : LayoutId} {L : Layout} (h : Ready D ls slot s b Γ (σ ++ L.fields))
    (hL : s.graph.layout? l = some L) :
    Succeeds (liftM (construct b l L.fields.length) : LowerM Unit) s fun _ s' =>
      After D ls slot s s' b Γ σ ∧ s'.graph.Last b (.object l) := by
  refine .lift_bind ((h.popMany rfl).bind ?_)
  rintro rs s₁ - ⟨h₁, hrs⟩
  have hL₁ := h₁.grows.layouts l L hL
  refine .lift_bind ((h₁.ready.emit (.new l) (.object l) rfl (by simp [Operation.operands])
    ⟨rfl, L, hL₁⟩).bind ?_)
  rintro o s₂ - ⟨h₂, -, ho⟩
  refine .lift_bind ((h₂.ready.storeFields ho (hrs.imp fun _ _ hr => hr.extend h₂.grows.graph)
    fun k vt hk => ⟨L, h₂.grows.layouts l L hL₁, by rwa [Nat.zero_add]⟩).bind ?_)
  rintro _ s₃ - h₃
  refine .lift_bind ((h₃.ready.copy (ho.extend h₃.grows.graph)).bind ?_)
  rintro _ s₄ - ⟨h₄, hlast⟩
  exact .lift_pure ⟨.trans ((h₁.grows.trans h₂.grows).trans h₃.grows) h₄, hlast⟩

end Ready

end Lowering

end BlockGraph

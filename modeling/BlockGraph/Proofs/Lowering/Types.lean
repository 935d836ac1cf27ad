import BlockGraph.Proofs.Lowering.Declarations
import BlockGraph.Proofs.Source.Analysis

namespace BlockGraph.Lowering

open Builder

structure Retains (s s' : State) : Prop where
  graph : s.graph.Extends s'.graph
  returns : ∀ t l, s.returnLayouts.get? t = some l → s'.returnLayouts.get? t = some l
  classes : ∀ (k : Nat) l, s.classes[k]? = some l → s'.classes[k]? = some l
  functions : ∀ (k : Nat) e, s.functions[k]? = some e → s'.functions[k]? = some e

structure Grows (s s' : State) : Prop extends Retains s s' where
  layouts : ∀ l L, s.graph.layout? l = some L → s'.graph.layout? l = some L
  returning : s.toBuilder.Returning → s'.toBuilder.Returning

section Retention

variable {s s' s'' : State}

theorem Retains.refl (s : State) : Retains s s :=
  ⟨.refl _, fun _ _ h => h, fun _ _ h => h, fun _ _ h => h⟩

theorem Retains.trans (h : Retains s s') (k : Retains s' s'') : Retains s s'' where
  graph := h.graph.trans k.graph
  returns t l hl := k.returns t l (h.returns t l hl)
  classes n l hl := k.classes n l (h.classes n l hl)
  functions n e he := k.functions n e (h.functions n e he)

theorem Grows.refl (s : State) : Grows s s := ⟨.refl s, fun _ _ h => h, fun h => h⟩

theorem Grows.trans (h : Grows s s') (k : Grows s' s'') : Grows s s'' where
  toRetains := h.toRetains.trans k.toRetains
  layouts l L hl := k.layouts l L (h.layouts l L hl)
  returning hs := k.returning (h.returning hs)

end Retention

structure Unknown (fs : List FunctionId) (cs : List ClassId) (s : State) : Prop where
  functions : ∀ f ∈ fs, s.functions[f.index]? = none
  classes : ∀ c ∈ cs, s.classes[c.index]? = none

section Shifts

variable {fs fs' : List FunctionId} {cs cs' : List ClassId} {X Y : List BlockId} {s s' : State}

theorem Shifts.graph_extends (h : Shifts fs cs X s Y s') : s.graph.Extends s'.graph := by
  obtain ⟨E, N, hmoves, -⟩ := h.moves
  exact hmoves.graph_extends

theorem Shifts.keeps (h : Shifts fs cs X s Y s') {c : BlockId} {B : Block} (hc : c ∉ X)
    (hB : s.graph.block? c = some B) : s'.graph.block? c = some B := by
  obtain ⟨E, N, hmoves, -⟩ := h.moves
  exact hmoves.keeps c B hc hB

theorem Shifts.grows (h : Shifts fs cs X s Y s') (hnew : Unknown fs cs s) : Grows s s' := by
  obtain ⟨E, N, hmoves, -⟩ := h.moves
  refine ⟨⟨hmoves.graph_extends, hmoves.returns, fun k l hl => ?_, fun k e he => ?_⟩,
    hmoves.layouts, hmoves.returning⟩
  · rw [h.classes k, hl]
    rintro c hc rfl
    simp [hnew.classes c hc] at hl
  · rw [h.functions k, he]
    rintro f hf rfl
    simp [hnew.functions f hf] at he

theorem Unknown.nil (s : State) : Unknown [] [] s := ⟨by simp, by simp⟩

theorem Rebuilds.grows (h : Rebuilds X s Y s') : Grows s s' := h.shifts.grows (.nil s)

theorem Unknown.mono (h : Unknown fs' cs' s) (hf : ∀ f ∈ fs, f ∈ fs') (hc : ∀ c ∈ cs, c ∈ cs') :
    Unknown fs cs s :=
  ⟨fun f hf' => h.functions f (hf f hf'), fun c hc' => h.classes c (hc c hc')⟩

theorem Unknown.after (h : Unknown fs' cs' s) (hs : Shifts fs cs X s Y s')
    (hf : ∀ f ∈ fs, ∀ f' ∈ fs', f ≠ f') (hc : ∀ c ∈ cs, ∀ c' ∈ cs', c ≠ c') :
    Unknown fs' cs' s' := by
  refine ⟨fun f' hf' => ?_, fun c' hc' => ?_⟩
  · rw [hs.functions _ fun f hf'' hi => hf f hf'' f' hf' (by cases f; cases f'; simp_all),
      h.functions f' hf']
  · rw [hs.classes _ fun c hc'' hi => hc c hc'' c' hc' (by cases c; cases c'; simp_all),
      h.classes c' hc']

end Shifts

mutual

def lowered? (s : State) : SourceType → Option ValueType
  | .prim p => some (.prim p)
  | .object c => s.classes[c.index]?.map .object
  | .array element => (lowered? s element).map .array
  | .function result parameters =>
    (lowered? s result).bind fun result => (s.returnLayouts.get? result).bind fun returns =>
      (loweredAll? s parameters).map fun parameters => .blockRef (.object returns :: parameters)

def loweredAll? (s : State) : List SourceType → Option (List ValueType)
  | [] => some []
  | t :: ts => (lowered? s t).bind fun t => (loweredAll? s ts).map (t :: ·)

end

theorem lowered?_array {s : State} {t : SourceType} {v : ValueType} :
    lowered? s (.array t) = some v ↔ ∃ u, lowered? s t = some u ∧ v = .array u := by
  simp only [lowered?, Option.map_eq_some_iff, eq_comm (a := v)]

theorem loweredAll?_eq_some {s : State} {ts : List SourceType} {vs : List ValueType} :
    loweredAll? s ts = some vs ↔ List.Forall₂ (fun t v => lowered? s t = some v) ts vs := by
  induction ts generalizing vs with
  | nil =>
    rw [loweredAll?, List.forall₂_nil_left_iff, Option.some.injEq]
    exact eq_comm
  | cons t ts ih =>
    simp only [loweredAll?, List.forall₂_cons_left_iff, Option.bind_eq_some_iff,
      Option.map_eq_some_iff, ih]
    constructor
    · rintro ⟨v, hv, vs, hvs, rfl⟩
      exact ⟨v, vs, hv, hvs, rfl⟩
    · rintro ⟨v, vs, hv, hvs, rfl⟩
      exact ⟨v, hv, vs, hvs, rfl⟩

section Growth

variable {s s' : State}

mutual

theorem Retains.lowered? (h : Retains s s') :
    (t : SourceType) → (v : ValueType) → lowered? s t = some v → lowered? s' t = some v
  | .prim _, _, hv => hv
  | .object c, v, hv => by
    simp only [Lowering.lowered?, Option.map_eq_some_iff] at hv ⊢
    obtain ⟨l, hl, rfl⟩ := hv
    exact ⟨l, h.classes _ l hl, rfl⟩
  | .array element, v, hv => by
    simp only [Lowering.lowered?, Option.map_eq_some_iff] at hv ⊢
    obtain ⟨t, ht, rfl⟩ := hv
    exact ⟨t, h.lowered? element t ht, rfl⟩
  | .function result parameters, v, hv => by
    simp only [Lowering.lowered?, Option.bind_eq_some_iff, Option.map_eq_some_iff] at hv ⊢
    obtain ⟨r, hr, l, hl, ps, hps, rfl⟩ := hv
    exact ⟨r, h.lowered? result r hr, l, h.returns r l hl, ps, h.loweredAll? parameters ps hps, rfl⟩

theorem Retains.loweredAll? (h : Retains s s') :
    (ts : List SourceType) → (vs : List ValueType) → loweredAll? s ts = some vs →
      loweredAll? s' ts = some vs
  | [], _, hv => hv
  | t :: ts, vs, hv => by
    simp only [Lowering.loweredAll?, Option.bind_eq_some_iff, Option.map_eq_some_iff] at hv ⊢
    obtain ⟨v, hv, vs, hvs, rfl⟩ := hv
    exact ⟨v, h.lowered? t v hv, vs, h.loweredAll? ts vs hvs, rfl⟩

end

end Growth

theorem Settles.grows {α : Type} {x : LowerM α} (h : Settles x) {s s' : State} {a : α}
    (hr : Runs x s a s') : Grows s s' :=
  Rebuilds.grows (h hr)

section Runs

variable {s s' : State}

theorem returnLayout_get? {s s' : Builder} {result : ValueType} {l : LayoutId}
    (h : Runs (returnLayout result) s l s') : s'.returnLayouts.get? result = some l := by
  rcases runs_returnLayout.1 h with ⟨hl, rfl⟩ | ⟨rfl, hreg⟩
  · exact hl
  · rw [OrderedMap.get?_of_entries hreg.2.2.2 hreg.1, if_pos rfl]

theorem exists_runs_returnLayout (s : Builder) (result : ValueType) :
    ∃ l s', Runs (returnLayout result) s l s' := by
  cases hl : s.returnLayouts.get? result with
  | some l => exact ⟨l, s, runs_returnLayout.2 (.inl ⟨hl, rfl⟩)⟩
  | none =>
    have hk := OrderedMap.get?_eq_none_iff.1 hl
    obtain ⟨m, -, hm⟩ := OrderedMap.insertNew_of_notMem (a := s.layoutId) hk
    exact ⟨_, { s.appendLayout (returning s.layoutId result) with returnLayouts := m },
      runs_returnLayout.2 (.inr ⟨rfl, hk, rfl, rfl, hm⟩)⟩

mutual

theorem lowered?_of_runs {s s' : State} :
    (t : SourceType) → (v : ValueType) → Runs (lowerType t) s v s' → lowered? s' t = some v
  | .prim p, v, h => by
    rw [lowerType] at h
    obtain ⟨rfl, rfl⟩ := Runs.pure_iff.1 h
    rfl
  | .object c, v, h => by
    rw [lowerType] at h
    simp only [Runs.bind_iff, runs_classLayout, Runs.pure_iff] at h
    obtain ⟨l, _, ⟨hl, rfl⟩, rfl, rfl⟩ := h
    simp [lowered?, hl]
  | .array element, v, h => by
    rw [lowerType] at h
    simp only [Runs.bind_iff, Runs.pure_iff] at h
    obtain ⟨t, _, ht, rfl, rfl⟩ := h
    simp [lowered?, lowered?_of_runs element t ht]
  | .function result parameters, v, h => by
    rw [lowerType] at h
    simp only [Runs.bind_iff, Runs.pure_iff] at h
    obtain ⟨r, s₁, hr, l, s₂, hl, ps, _, hps, rfl, rfl⟩ := h
    have hgrow := settles_returnLayout.grows hl
    have hgrow' := (settles_lowerTypes parameters).grows hps
    obtain ⟨t, ht, rfl⟩ := Runs.lift_build_iff.1 hl
    simp only [lowered?, Option.bind_eq_some_iff, Option.map_eq_some_iff]
    exact ⟨r, (hgrow.trans hgrow').lowered? _ _ (lowered?_of_runs result r hr), l,
      hgrow'.returns _ _ (returnLayout_get? ht), ps, loweredAll?_of_runs parameters ps hps, rfl⟩

theorem loweredAll?_of_runs {s s' : State} :
    (ts : List SourceType) → (vs : List ValueType) → Runs (lowerTypes ts) s vs s' →
      loweredAll? s' ts = some vs
  | [], vs, h => by
    rw [lowerTypes] at h
    obtain ⟨rfl, rfl⟩ := Runs.pure_iff.1 h
    rfl
  | t :: ts, vs, h => by
    rw [lowerTypes] at h
    simp only [Runs.bind_iff, Runs.pure_iff] at h
    obtain ⟨v, s₁, hv, vs, _, hvs, rfl, rfl⟩ := h
    have hgrow := (settles_lowerTypes ts).grows hvs
    simp only [loweredAll?, Option.bind_eq_some_iff, Option.map_eq_some_iff]
    exact ⟨v, hgrow.lowered? _ _ (lowered?_of_runs t v hv), vs, loweredAll?_of_runs ts vs hvs, rfl⟩

end

section Closure

variable {P : State → State → Prop}

mutual

theorem lowerType_closure (hrefl : ∀ s, P s s) (htrans : ∀ {s t u}, P s t → P t u → P s u)
    (hlayout : ∀ {s result l t}, Runs (returnLayout result) s.toBuilder l t →
      P s { s with toBuilder := t }) {s s' : State} :
    (t : SourceType) → (v : ValueType) → Runs (lowerType t) s v s' → P s s'
  | .prim p, v, h => by
    rw [lowerType] at h
    obtain ⟨-, rfl⟩ := Runs.pure_iff.1 h
    exact hrefl _
  | .object c, v, h => by
    rw [lowerType] at h
    simp only [Runs.bind_iff, runs_classLayout, Runs.pure_iff] at h
    obtain ⟨l, _, ⟨-, rfl⟩, -, rfl⟩ := h
    exact hrefl _
  | .array element, v, h => by
    rw [lowerType] at h
    simp only [Runs.bind_iff, Runs.pure_iff] at h
    obtain ⟨t, _, ht, -, rfl⟩ := h
    exact lowerType_closure hrefl htrans hlayout element t ht
  | .function result parameters, v, h => by
    rw [lowerType] at h
    simp only [Runs.bind_iff, Runs.lift_build_iff, Runs.pure_iff] at h
    obtain ⟨r, s₁, hr, l, _, ⟨t, hl, rfl⟩, ps, _, hps, -, rfl⟩ := h
    exact htrans (lowerType_closure hrefl htrans hlayout result r hr)
      (htrans (hlayout hl) (lowerTypes_closure hrefl htrans hlayout parameters ps hps))

theorem lowerTypes_closure (hrefl : ∀ s, P s s) (htrans : ∀ {s t u}, P s t → P t u → P s u)
    (hlayout : ∀ {s result l t}, Runs (returnLayout result) s.toBuilder l t →
      P s { s with toBuilder := t }) {s s' : State} :
    (ts : List SourceType) → (vs : List ValueType) → Runs (lowerTypes ts) s vs s' → P s s'
  | [], vs, h => by
    rw [lowerTypes] at h
    obtain ⟨-, rfl⟩ := Runs.pure_iff.1 h
    exact hrefl _
  | t :: ts, vs, h => by
    rw [lowerTypes] at h
    simp only [Runs.bind_iff, Runs.pure_iff] at h
    obtain ⟨v, s₁, hv, vs, _, hvs, -, rfl⟩ := h
    exact htrans (lowerType_closure hrefl htrans hlayout t v hv)
      (lowerTypes_closure hrefl htrans hlayout ts vs hvs)

end

end Closure

theorem lowerType_blocks {t : SourceType} {v : ValueType} (h : Runs (lowerType t) s v s') :
    s'.graph.blocks = s.graph.blocks := by
  refine lowerType_closure (P := fun s s' => s'.graph.blocks = s.graph.blocks) (fun _ => rfl)
    (fun h k => k.trans h) (fun {s result l u} h => ?_) t v h
  rcases runs_returnLayout.1 h with ⟨-, rfl⟩ | ⟨-, -, hgraph, -⟩
  · rfl
  · change u.graph.blocks = _
    rw [hgraph]
    rfl

mutual

theorem runs_lowerType_of_lowered? {s : State} :
    (t : SourceType) → (v : ValueType) → lowered? s t = some v → Runs (lowerType t) s v s
  | .prim p, v, h => by
    rw [lowerType]
    obtain rfl : ValueType.prim p = v := by simpa [lowered?] using h
    exact Runs.pure_iff.2 ⟨rfl, rfl⟩
  | .object c, v, h => by
    rw [lowerType]
    simp only [lowered?, Option.map_eq_some_iff] at h
    obtain ⟨l, hl, rfl⟩ := h
    simp only [Runs.bind_iff, runs_classLayout, Runs.pure_iff]
    exact ⟨l, s, ⟨hl, rfl⟩, rfl, rfl⟩
  | .array element, v, h => by
    rw [lowerType]
    simp only [lowered?, Option.map_eq_some_iff] at h
    obtain ⟨t, ht, rfl⟩ := h
    simp only [Runs.bind_iff, Runs.pure_iff]
    exact ⟨t, s, runs_lowerType_of_lowered? element t ht, rfl, rfl⟩
  | .function result parameters, v, h => by
    rw [lowerType]
    simp only [lowered?, Option.bind_eq_some_iff, Option.map_eq_some_iff] at h
    obtain ⟨r, hr, l, hl, ps, hps, rfl⟩ := h
    simp only [Runs.bind_iff, Runs.lift_build_iff, Runs.pure_iff]
    exact ⟨r, s, runs_lowerType_of_lowered? result r hr, l, s,
      ⟨s.toBuilder, runs_returnLayout.2 (.inl ⟨hl, rfl⟩), rfl⟩, ps, s,
      runs_lowerTypes_of_loweredAll? parameters ps hps, rfl, rfl⟩

theorem runs_lowerTypes_of_loweredAll? {s : State} :
    (ts : List SourceType) → (vs : List ValueType) → loweredAll? s ts = some vs →
      Runs (lowerTypes ts) s vs s
  | [], vs, h => by
    rw [lowerTypes]
    obtain rfl : [] = vs := by simpa [loweredAll?] using h
    exact Runs.pure_iff.2 ⟨rfl, rfl⟩
  | t :: ts, vs, h => by
    rw [lowerTypes]
    simp only [loweredAll?, Option.bind_eq_some_iff, Option.map_eq_some_iff] at h
    obtain ⟨v, hv, vs, hvs, rfl⟩ := h
    simp only [Runs.bind_iff, Runs.pure_iff]
    exact ⟨v, s, runs_lowerType_of_lowered? t v hv, vs, s,
      runs_lowerTypes_of_loweredAll? ts vs hvs, rfl, rfl⟩

end

open Analysis in
mutual

theorem exists_runs_lowerType {D : Declared} {s : State}
    (hD : ∀ c, (D.fields? c).isSome = true → ∃ l, s.classes[c.index]? = some l) :
    (t : SourceType) → t.isVoid = true ∨ isValueType D t = true → ∃ v s', Runs (lowerType t) s v s'
  | .prim p, _ => by
    rw [lowerType]
    exact ⟨_, s, Runs.pure_iff.2 ⟨rfl, rfl⟩⟩
  | .object c, h => by
    obtain ⟨l, hl⟩ := hD c (by simpa [SourceType.isVoid, isValueType] using h)
    exact ⟨.object l, s, runs_lowerType_of_lowered? _ _ (by simp [lowered?, hl])⟩
  | .array element, h => by
    have helement : isValueType D element = true := by
      simpa [SourceType.isVoid, isValueType] using h
    obtain ⟨v, s', hv⟩ := exists_runs_lowerType hD element (.inr helement)
    rw [lowerType]
    exact ⟨_, s', Runs.bind_iff.2 ⟨v, s', hv, Runs.pure_iff.2 ⟨rfl, rfl⟩⟩⟩
  | .function result parameters, h => by
    obtain ⟨hresult, hparameters⟩ : (result.isVoid = true ∨ isValueType D result = true) ∧
        areValueTypes D parameters = true := by
      simpa [SourceType.isVoid, isValueType] using h
    obtain ⟨r, s₁, hr⟩ := exists_runs_lowerType hD result hresult
    obtain ⟨l, s₂, hl⟩ : ∃ l s₂, Runs (liftM (returnLayout r) : LowerM LayoutId) s₁ l s₂ := by
      obtain ⟨l, t, ht⟩ := exists_runs_returnLayout s₁.toBuilder r
      exact ⟨l, _, Runs.lift_build_iff.2 ⟨t, ht, rfl⟩⟩
    have hgrow := ((settles_lowerType result).grows hr).trans (settles_returnLayout.grows hl)
    have hD' : ∀ c, (D.fields? c).isSome = true → ∃ l, s₂.classes[c.index]? = some l := by
      intro c hc
      obtain ⟨l, hl⟩ := hD c hc
      exact ⟨l, hgrow.classes _ l hl⟩
    obtain ⟨ps, s₃, hps⟩ := exists_runs_lowerTypes hD' parameters hparameters
    rw [lowerType]
    simp only [Runs.bind_iff, Runs.pure_iff]
    exact ⟨_, s₃, r, s₁, hr, l, s₂, hl, ps, s₃, hps, rfl, rfl⟩

theorem exists_runs_lowerTypes {D : Declared} {s : State}
    (hD : ∀ c, (D.fields? c).isSome = true → ∃ l, s.classes[c.index]? = some l) :
    (ts : List SourceType) → areValueTypes D ts = true → ∃ vs s', Runs (lowerTypes ts) s vs s'
  | [], _ => by
    rw [lowerTypes]
    exact ⟨_, s, Runs.pure_iff.2 ⟨rfl, rfl⟩⟩
  | t :: ts, h => by
    obtain ⟨ht, hts⟩ : isValueType D t = true ∧ areValueTypes D ts = true := by
      simpa [areValueTypes] using h
    obtain ⟨v, s₁, hv⟩ := exists_runs_lowerType hD t (.inr ht)
    have hD' : ∀ c, (D.fields? c).isSome = true → ∃ l, s₁.classes[c.index]? = some l := by
      intro c hc
      obtain ⟨l, hl⟩ := hD c hc
      exact ⟨l, ((settles_lowerType t).grows hv).classes _ l hl⟩
    obtain ⟨vs, s₂, hvs⟩ := exists_runs_lowerTypes hD' ts hts
    rw [lowerTypes]
    simp only [Runs.bind_iff, Runs.pure_iff]
    exact ⟨_, s₂, v, s₁, hv, vs, s₂, hvs, rfl, rfl⟩

end

end Runs

end BlockGraph.Lowering

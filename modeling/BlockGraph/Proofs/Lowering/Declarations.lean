import BlockGraph.Proofs.Lowering.Expressions
import BlockGraph.Proofs.Source.Scopes

namespace BlockGraph

namespace Builder

theorem Moves.setFields {E X Y : List BlockId} {s s' : Builder} (h : Moves E X s Y s')
    {l : LayoutId} (hl : s.graph.layouts.length ≤ l.index)
    (hclass : ∀ L, s'.graph.layout? l = some L → L.origin ≠ .ofReturn) (fields : List ValueType) :
    Moves E X s Y (s'.setFields l fields) where
  steps := h.steps.tail (.setFields l fields)
  keeps := h.keeps
  fresh := h.fresh
  opens := h.opens
  reach := h.reach
  layouts k L hk := by
    have hlt := lt_of_layout? hk
    have hne : k ≠ l := by
      rintro rfl
      omega
    simp [setFields_layout?, h.layouts k L hk, hne]
  returns := h.returns
  returning hs t k hk := by
    have hL : s'.graph.layout? k = some (Builder.returning k t) := h.returning hs t k hk
    have hne : k ≠ l := by
      rintro rfl
      exact hclass _ hL rfl
    simp [setFields_layout?, hL, hne]

end Builder

namespace Lowering

open Builder

variable {fs : List FunctionId} {cs : List ClassId} {X Y : List BlockId} {s s' : State}

def State.HasClass (s : State) (n : Nat) (c : ClassId) (l : LayoutId) : Prop :=
  s.classes[c.index]? = some l ∧ n ≤ l.index ∧
    ∃ L name, s.graph.layout? l = some L ∧ L.origin = .ofClass name

theorem Shifts.setFields (h : Shifts fs cs X s Y s') {c : ClassId} {l : LayoutId}
    (hl : s'.HasClass s.graph.layouts.length c l) (fields : List ValueType) :
    Shifts fs cs X s Y { s' with toBuilder := s'.toBuilder.setFields l fields } := by
  obtain ⟨E, N, hmoves, hwait, hentries⟩ := h.moves
  have hclass : ∀ L, s'.graph.layout? l = some L → L.origin ≠ .ofReturn := by
    obtain ⟨-, -, L, name, hL, horigin⟩ := hl
    intro L' hL'
    obtain rfl := Option.some.inj (hL.symm.trans hL')
    simp [horigin]
  refine ⟨⟨E, N, hmoves.setFields hl.2.1 hclass fields, hwait, hentries⟩, h.loops, h.functions,
    h.classes, ?_⟩
  intro hs
  obtain ⟨hentry, hinj, hlayout, hlinj⟩ := h.registered hs
  refine ⟨hentry, hinj, fun k l' hl' => ?_, hlinj⟩
  obtain ⟨L, name, hL, ho⟩ := hlayout k l' hl'
  by_cases hne : l' = l
  · subst hne
    exact ⟨{ L with fields }, name, by simp [setFields_layout?, hL], ho⟩
  · exact ⟨L, name, by simp [setFields_layout?, hL, hne], ho⟩

theorem runs_declare {c : ClassDecl} {u : Unit} :
    Runs (declare c) s u s' ↔
      s' = { s with
        toBuilder := s.toBuilder.appendLayout ⟨[], .ofClass c.name⟩
        classes := s.classes.insert c.id.index s.toBuilder.layoutId } := by
  simp only [declare, Runs.bind_iff, Runs.lift_build_iff, runs_declareClass, Runs.modify_iff]
  constructor
  · rintro ⟨_, _, ⟨_, ⟨rfl, rfl⟩, rfl⟩, rfl⟩
    rfl
  · rintro rfl
    exact ⟨_, _, ⟨_, ⟨rfl, rfl⟩, rfl⟩, rfl⟩

theorem shifts_declare {c : ClassDecl} {u : Unit} (h : Runs (declare c) s u s') :
    Shifts [] [c.id] [] s [] s' := by
  obtain rfl := runs_declare.1 h
  refine ⟨⟨[], [], by simpa using Moves.layout _ _, by simp, by simp⟩, .refl _, fun _ _ => rfl, ?_, ?_⟩
  · intro k hk
    have hne : c.id.index ≠ k := hk c.id (by simp)
    simp [Std.TreeMap.getElem?_insert, hne]
  · intro hs
    have hnew : ∀ (k : Nat) l, s.classes[k]? = some l → l ≠ s.toBuilder.layoutId := by
      rintro k l hl rfl
      obtain ⟨L, name, hL, -⟩ := hs.layout k _ hl
      exact Nat.lt_irrefl _ (lt_of_layout? hL)
    refine ⟨hs.entry, hs.entry_inj, fun k l hl => ?_, fun k k' l hl hl' => ?_⟩
    · simp only [Std.TreeMap.getElem?_insert, Nat.compare_eq_eq] at hl
      split at hl
      · obtain rfl := Option.some.inj hl
        exact ⟨⟨[], .ofClass c.name⟩, c.name, by simp [appendLayout_layout?], rfl⟩
      · obtain ⟨L, name, hL, ho⟩ := hs.layout k l hl
        exact ⟨L, name, appendLayout_layout?_of_some hL, ho⟩
    · simp only [Std.TreeMap.getElem?_insert, Nat.compare_eq_eq] at hl hl'
      split at hl <;> split at hl'
      · omega
      · exact absurd (Option.some.inj hl).symm (hnew _ _ hl')
      · exact absurd (Option.some.inj hl').symm (hnew _ _ hl)
      · exact hs.layout_inj k k' l hl hl'

theorem shifts_declares {cs : List ClassDecl} {u : PUnit} (h : Runs (cs.forM declare) s u s') :
    Shifts [] (cs.map (·.id)) [] s [] s' ∧
      ∀ c ∈ cs, ∃ l, s'.HasClass s.graph.layouts.length c.id l := by
  induction cs generalizing s with
  | nil =>
    obtain rfl := Runs.forM_nil.1 h
    exact ⟨.refl _ _, by simp⟩
  | cons c cs ih =>
    obtain ⟨t, hc, hcs⟩ := Runs.forM_cons.1 h
    have hshift := shifts_declare hc
    obtain ⟨hshifts, hlayouts⟩ := ih hcs
    obtain rfl := runs_declare.1 hc
    have hlength : (s.toBuilder.appendLayout ⟨[], .ofClass c.name⟩).graph.layouts.length =
        s.graph.layouts.length + 1 := by simp [appendLayout]
    dsimp only at hlayouts
    rw [hlength] at hlayouts
    refine ⟨hshift.trans hshifts (by simp), ?_⟩
    intro d hd
    by_cases hmem : ∃ d' ∈ cs, d'.id.index = d.id.index
    · obtain ⟨d', hd', hid⟩ := hmem
      obtain ⟨l, hl, hle, hlayout⟩ := hlayouts d' hd'
      exact ⟨l, hid ▸ hl, by omega, hlayout⟩
    · have hdc : d = c := by
        rcases List.mem_cons.1 hd with rfl | hd
        · rfl
        · exact absurd ⟨d, hd, rfl⟩ hmem
      subst hdc
      obtain ⟨E, N, hmoves, -⟩ := hshifts.moves
      refine ⟨s.toBuilder.layoutId, ?_, Nat.le_refl _, ⟨[], .ofClass d.name⟩, d.name,
        hmoves.layouts _ _ (by simp [appendLayout_layout?]), rfl⟩
      rw [hshifts.classes _ (by simpa using hmem)]
      simp

theorem shifts_defineFields {ds : List ClassDecl} {u : PUnit} {t : State}
    (hshift : Shifts fs cs X s Y t)
    (hnew : ∀ d ∈ ds, ∃ l, t.HasClass s.graph.layouts.length d.id l)
    (h : Runs (ds.forM defineFields) t u s') :
    Shifts fs cs X s Y s' ∧ (∀ k : Nat, s'.functions[k]? = t.functions[k]?) ∧
      ∀ k : Nat, s'.classes[k]? = t.classes[k]? := by
  induction ds generalizing t with
  | nil =>
    obtain rfl := Runs.forM_nil.1 h
    exact ⟨hshift, fun _ => rfl, fun _ => rfl⟩
  | cons d ds ih =>
    obtain ⟨t', hd, hds⟩ := Runs.forM_cons.1 h
    simp only [defineFields, Runs.bind_iff, runs_classLayout, Runs.lift_build_iff,
      runs_defineClass] at hd
    obtain ⟨fields, _, htypes, l, t₁, ⟨hl, rfl⟩, _, ⟨-, rfl⟩, rfl⟩ := hd
    have hsettle := (settles_lowerTypes _ htypes).shifts
    have hfunctions (k : Nat) := hsettle.functions k (by simp)
    have hclasses (k : Nat) := hsettle.classes k (by simp)
    obtain ⟨E, N, hmoves, -⟩ := hsettle.moves
    have hnew' : ∀ d' ∈ d :: ds, ∃ l, t₁.HasClass s.graph.layouts.length d'.id l := by
      intro d' hd'
      obtain ⟨l', hl', hle, L, name, hL, horigin⟩ := hnew d' hd'
      exact ⟨l', (hclasses _).trans hl', hle, L, name, hmoves.layouts _ _ hL, horigin⟩
    obtain ⟨l', hl'⟩ := hnew' d (by simp)
    obtain rfl : l' = l := Option.some.inj (hl'.1.symm.trans hl)
    have hshift' := (hshift.andThen (hsettle.frame Y)).setFields hl' fields
    obtain ⟨hend, hf, hc⟩ := ih hshift' (fun d' hd' => by
      obtain ⟨k, hk, hle, L, name, hL, horigin⟩ := hnew' d' (by simp [hd'])
      exact ⟨k, hk, hle, _, name, by simp [setFields_layout?, hL]; rfl, by split <;> exact horigin⟩)
      hds
    exact ⟨hend, fun k => (hf k).trans (hfunctions k), fun k => (hc k).trans (hclasses k)⟩

theorem stays_defineParameters {entry : BlockId} {n : Nat} {ps : List Parameter} :
    Stays entry (defineParameters entry n ps) := by
  induction ps generalizing n with
  | nil => exact .pure rfl
  | cons p ps ih =>
    obtain ⟨t, name⟩ := p
    cases name with
    | none => exact ih
    | some name => exact stays_define.bind fun _ => ih

theorem Shifts.insert {entry : BlockId} {t : Builder} (h : Moves [entry] [] s.toBuilder [entry] t)
    (f : FunctionId) {e : FunctionEntry} (he : e.entry = entry) :
    Shifts [f] [] [] s [entry]
      { s with toBuilder := t, functions := s.functions.insert f.index e } := by
  have hfresh : s.graph.block? entry = none ∧ t.graph.block? entry ≠ none := by
    simpa using h.fresh entry (by simp)
  refine ⟨⟨[entry], [], by simpa using h, by simp, ?_⟩, .refl _, ?_, fun _ _ => rfl, ?_⟩
  · intro x hx
    obtain rfl := List.mem_singleton.1 hx
    exact ⟨f, by simp, e, by simp, he⟩
  · intro k hk
    have hne : f.index ≠ k := hk f (by simp)
    simp [Std.TreeMap.getElem?_insert, hne]
  · intro hs
    have hnew : ∀ (k : Nat) e', s.functions[k]? = some e' → e'.entry ≠ entry := by
      rintro k e' he' rfl
      obtain ⟨B, hB⟩ := hs.entry k e' he'
      simp [hB] at hfresh
    refine ⟨fun k e' he' => ?_, fun k k' e₁ e₂ h₁ h₂ heq => ?_, fun k l hl => ?_, hs.layout_inj⟩
    · simp only [Std.TreeMap.getElem?_insert, Nat.compare_eq_eq] at he'
      split at he'
      · obtain rfl := Option.some.inj he'
        rw [he]
        exact Option.ne_none_iff_exists'.1 hfresh.2
      · obtain ⟨B, hB⟩ := hs.entry k e' he'
        obtain ⟨B', hB', -⟩ := h.graph_extends _ B hB
        exact ⟨B', hB'⟩
    · simp only [Std.TreeMap.getElem?_insert, Nat.compare_eq_eq] at h₁ h₂
      split at h₁ <;> split at h₂
      · omega
      · obtain rfl := Option.some.inj h₁
        exact absurd (heq.symm.trans he) (hnew _ _ h₂)
      · obtain rfl := Option.some.inj h₂
        exact absurd (heq.trans he) (hnew _ _ h₁)
      · exact hs.entry_inj k k' e₁ e₂ h₁ h₂ heq
    · obtain ⟨L, name, hL, ho⟩ := hs.layout k l hl
      exact ⟨L, name, h.layouts l L hL, ho⟩

theorem declareFunction_cases {f : FunctionDecl} {u : Unit} (h : Runs (declareFunction f) s u s') :
    ∃ result t₁ returns t₂ types t₃ entry t₄ t₅ t₆, Runs (lowerType f.result) s result t₁ ∧
      Runs (liftM (returnLayout result) : LowerM LayoutId) t₁ returns t₂ ∧
      Runs (lowerTypes (f.parameters.map (·.type))) t₂ types t₃ ∧
      Runs (addBlock (⟨.object returns, none⟩ ::
        f.parameters.zipWith (fun p t => Parameter.mk t (some p.name)) types)) t₃.toBuilder entry t₄ ∧
      Runs (setLocals entry { returnSlot := some ⟨0⟩ }) t₄ () t₅ ∧
      Runs (defineParameters entry 1
        (f.parameters.zipWith (fun p t => Parameter.mk t (some p.name)) types)) t₅ () t₆ ∧
      s' = { t₃ with
        toBuilder := t₆, functions := t₃.functions.insert f.id.index ⟨f.name, entry, returns⟩ } := by
  simp only [declareFunction, Runs.bind_iff, Runs.modify_iff] at h
  obtain ⟨result, t₁, hresult, returns, t₂, hreturns, types, t₃, htypes, h⟩ := h
  simp only [Runs.lift_build_iff, runs_tell] at h
  obtain ⟨entry, _, ⟨t₄, hadd, rfl⟩, _, _, ⟨t₅, hset, rfl⟩, _, _, ⟨_, hdefine, rfl⟩, _, _,
    ⟨t₆, rfl, rfl⟩, rfl⟩ := h
  exact ⟨result, t₁, returns, t₂, types, t₃, entry, t₄, t₅, t₆, hresult, hreturns, htypes, hadd, hset,
    hdefine, rfl⟩

theorem shifts_declareFunction {f : FunctionDecl} {u : Unit}
    (h : Runs (declareFunction f) s u s') :
    ∃ e, Shifts [f.id] [] [] s [e.entry] s' ∧ s'.functions[f.id.index]? = some e := by
  obtain ⟨result, t₁, returns, t₂, types, t₃, entry, t₄, t₅, t₆, hresult, hreturns, htypes, hadd, hset,
    hdefine, rfl⟩ := declareFunction_cases h
  have hmove : Moves [entry] [] t₃.toBuilder [entry] t₆ :=
    ((moves_addBlock hadd).trans (moves_setLocals hset)).trans
      (stays_defineParameters hdefine).toMoves
  have hsettle : Rebuilds [] s [] t₃ := ((settles_lowerType _ hresult).trans
    (settles_returnLayout hreturns)).trans (settles_lowerTypes _ htypes)
  exact ⟨⟨f.name, entry, returns⟩, hsettle.shifts.trans (.insert hmove f.id rfl) (by simp), by simp⟩

theorem shifts_declareFunctions {ds : List FunctionDecl} (hnodup : (ds.map (·.id)).Nodup)
    {u : PUnit} (h : Runs (ds.forM declareFunction) s u s') :
    ∃ es : List FunctionEntry, Shifts (ds.map (·.id)) [] [] s (es.map (·.entry)) s' ∧
      List.Forall₂ (fun d e => s'.functions[d.id.index]? = some e) ds es := by
  induction ds generalizing s with
  | nil =>
    obtain rfl := Runs.forM_nil.1 h
    exact ⟨[], .refl _ _, .nil⟩
  | cons d ds ih =>
    obtain ⟨t, hd, hds⟩ := Runs.forM_cons.1 h
    simp only [List.map_cons, List.nodup_cons] at hnodup
    obtain ⟨e, hshift, he⟩ := shifts_declareFunction hd
    obtain ⟨es, hshifts, hes⟩ := ih hnodup.2 hds
    have hne : ∀ f ∈ ds.map (·.id), f ≠ d.id := by
      rintro f hf rfl
      exact hnodup.1 hf
    refine ⟨e :: es, ?_, .cons ?_ hes⟩
    · refine (hshift.trans ((hshifts.frame [e.entry]).perm .rfl ?_) ?_).mono (by simp) (by simp)
      · exact List.perm_append_comm
      · simpa using fun f hf => (hne f hf).symm
    · rw [hshifts.functions _ fun f hf hi => hne f hf (by cases f; cases hd : d.id; simp_all), he]

end Lowering

end BlockGraph

import BlockGraph.Proofs.Builder.Actions
import BlockGraph.Proofs.OrderedMap

namespace BlockGraph

namespace Builder

variable {s s' : Builder} {l : LayoutId} {u : Unit}

def layoutId (s : Builder) : LayoutId := ⟨s.graph.layouts.length⟩

def appendLayout (s : Builder) (L : Layout) : Builder :=
  { s with graph := { s.graph with layouts := s.graph.layouts ++ [L] } }

def returning (id : LayoutId) (result : ValueType) : Layout :=
  ⟨[.blockRef (continuation id result)], .ofReturn⟩

theorem continuation_inj {l : LayoutId} {t t' : ValueType}
    (h : continuation l t = continuation l t') : t = t' := by
  have hvoid {t : ValueType} (ht : t.isVoid = true) : t = .prim .void := by
    unfold ValueType.isVoid at ht
    split at ht
    · rfl
    · cases ht
  unfold continuation at h
  cases ht : t.isVoid <;> cases ht' : t'.isVoid <;> simp [ht, ht'] at h
  · exact h
  · rw [hvoid ht, hvoid ht']

def setFields (s : Builder) (l : LayoutId) (fields : List ValueType) : Builder :=
  { s with graph := s.graph.modifyLayout l ({ · with fields }) }

@[simp] theorem appendLayout_block? (s : Builder) (L : Layout) (c : BlockId) :
    (s.appendLayout L).graph.block? c = s.graph.block? c := rfl

@[simp] theorem setFields_block? (s : Builder) (l : LayoutId) (fs : List ValueType) (c : BlockId) :
    (s.setFields l fs).graph.block? c = s.graph.block? c := rfl

theorem lt_of_layout? {g : Graph} {L : Layout} (h : g.layout? l = some L) :
    l.index < g.layouts.length :=
  (List.getElem?_eq_some_iff.1 h).1

theorem appendLayout_layout? (s : Builder) (L : Layout) (l : LayoutId) :
    (s.appendLayout L).graph.layout? l = if l = s.layoutId then some L else s.graph.layout? l := by
  by_cases h : l = s.layoutId
  · subst h
    simp [Graph.layout?, appendLayout, layoutId]
  · have hne : l.index ≠ s.graph.layouts.length := fun hi => h (by cases l; simp_all [layoutId])
    rw [if_neg h]
    simp only [Graph.layout?, appendLayout]
    rcases Nat.lt_or_ge l.index s.graph.layouts.length with k | k
    · rw [List.getElem?_append_left k]
    · rw [List.getElem?_eq_none k, List.getElem?_eq_none (by simp; omega)]

theorem appendLayout_layout?_of_some {L L' : Layout} (h : s.graph.layout? l = some L') :
    (s.appendLayout L).graph.layout? l = some L' := by
  rw [appendLayout_layout?, if_neg]
  · exact h
  · rintro rfl
    exact Nat.lt_irrefl _ (lt_of_layout? h)

theorem setFields_layout? (s : Builder) (l k : LayoutId) (fields : List ValueType) :
    (s.setFields l fields).graph.layout? k =
      (s.graph.layout? k).map fun L => if k = l then { L with fields } else L := by
  simp only [Graph.layout?, setFields, Graph.modifyLayout, List.getElem?_modify]
  by_cases h : k = l
  · simp [h]
  · have hne : l.index ≠ k.index := fun hi => h (by cases l; cases k; simp_all)
    simp [h, hne]

@[simp] theorem runs_nextLayout : Runs nextLayout s l s' ↔ l = s.layoutId ∧ s' = s := by
  simp only [nextLayout, Runs.bind_iff, Runs.get_iff, Runs.pure_iff, layoutId]
  constructor
  · rintro ⟨_, _, ⟨rfl, rfl⟩, rfl, rfl⟩
    exact ⟨rfl, rfl⟩
  · rintro ⟨rfl, rfl⟩
    exact ⟨s', s', ⟨rfl, rfl⟩, rfl, rfl⟩

@[simp] theorem runs_addLayout {L : Layout} :
    Runs (addLayout L) s l s' ↔ l = s.layoutId ∧ s' = s.appendLayout L := by
  simp only [addLayout, Runs.bind_iff, runs_nextLayout, runs_tell, Runs.modify_iff, Runs.pure_iff]
  constructor
  · rintro ⟨_, _, ⟨rfl, rfl⟩, -, _, rfl, -, _, rfl, rfl, rfl⟩
    exact ⟨rfl, rfl⟩
  · rintro ⟨rfl, rfl⟩
    exact ⟨_, s, ⟨rfl, rfl⟩, (), s, rfl, (), _, rfl, rfl, rfl⟩

@[simp] theorem runs_declareClass {name : String} :
    Runs (declareClass name) s l s' ↔
      l = s.layoutId ∧ s' = s.appendLayout ⟨[], .ofClass name⟩ :=
  runs_addLayout

@[simp] theorem runs_contextLayout {fields : List ValueType} :
    Runs (contextLayout fields) s l s' ↔
      l = s.layoutId ∧ s' = s.appendLayout ⟨fields, .ofContext⟩ :=
  runs_addLayout

@[simp] theorem runs_defineClass {fields : List ValueType} :
    Runs (defineClass l fields) s u s' ↔
      (∃ L, s.graph.layout? l = some L) ∧ s' = s.setFields l fields := by
  simp only [defineClass, Runs.bind_iff, runs_tell, runs_layout, Runs.modify_iff]
  constructor
  · rintro ⟨-, _, rfl, L, _, ⟨hL, rfl⟩, rfl⟩
    exact ⟨⟨L, hL⟩, rfl⟩
  · rintro ⟨⟨L, hL⟩, rfl⟩
    exact ⟨(), s, rfl, L, s, ⟨hL, rfl⟩, rfl⟩

def Registers (s : Builder) (result : ValueType) (s' : Builder) : Prop :=
  result ∉ s.returnLayouts.keys ∧
    s'.graph = (s.appendLayout (returning s.layoutId result)).graph ∧
    s'.diagnostics = s.diagnostics ∧
    s'.returnLayouts.entries = s.returnLayouts.entries ++ [(result, s.layoutId)]

theorem runs_returnLayout {result : ValueType} :
    Runs (returnLayout result) s l s' ↔
      s.returnLayouts.get? result = some l ∧ s' = s ∨ l = s.layoutId ∧ s.Registers result s' := by
  simp only [returnLayout, Runs.bind_iff, Runs.get_iff]
  constructor
  · rintro ⟨s, _, ⟨rfl, rfl⟩, h⟩
    split at h
    case h_1 id hid =>
      obtain ⟨rfl, rfl⟩ := Runs.pure_iff.1 h
      exact .inl ⟨hid, rfl⟩
    case h_2 hnone =>
      simp only [Runs.bind_iff, runs_nextLayout, runs_addLayout, Runs.modify_iff,
        Runs.pure_iff] at h
      obtain ⟨_, s, ⟨rfl, rfl⟩, _, _, ⟨rfl, rfl⟩, -, _, rfl, rfl, rfl⟩ := h
      have hk := OrderedMap.get?_eq_none_iff.1 hnone
      obtain ⟨m, hm, he⟩ := OrderedMap.insertNew_of_notMem (a := s.layoutId) hk
      refine .inr ⟨rfl, hk, ?_⟩
      have hm' : (s.appendLayout ⟨[.blockRef (continuation s.layoutId result)],
        .ofReturn⟩).returnLayouts.insertNew result s.layoutId = .ok m := hm
      rw [hm']
      exact ⟨rfl, rfl, he⟩
  · rintro (⟨hid, rfl⟩ | ⟨rfl, hk, hgraph, hdiag, he⟩)
    · exact ⟨s', s', ⟨rfl, rfl⟩, by simp [hid]⟩
    · refine ⟨s, s, ⟨rfl, rfl⟩, ?_⟩
      rw [OrderedMap.get?_eq_none_iff.2 hk]
      simp only [Runs.bind_iff, runs_nextLayout, runs_addLayout, Runs.modify_iff, Runs.pure_iff]
      refine ⟨_, s, ⟨rfl, rfl⟩, _, _, ⟨rfl, rfl⟩, ⟨⟩, _, rfl, rfl, ?_⟩
      obtain ⟨m, hm, he'⟩ := OrderedMap.insertNew_of_notMem (a := s.layoutId) hk
      have hm' : (s.appendLayout ⟨[.blockRef (continuation s.layoutId result)],
        .ofReturn⟩).returnLayouts.insertNew result s.layoutId = .ok m := hm
      rw [hm']
      obtain ⟨graph, diagnostics, ⟨entries, nodup⟩⟩ := s'
      obtain ⟨entries', nodup'⟩ := m
      simp only at hgraph hdiag he he'
      subst hgraph hdiag he he'
      rfl

end Builder

end BlockGraph

import BlockGraph.Proofs.Sessions.History
import Mathlib.Data.List.Dedup
import Mathlib.Data.List.Induction

/-!
The registry of layouts to return through. It is kept beside the table of all layouts, in which those
of classes and contexts stand as well; yet there is one such layout for each type of result that was
asked for, and no other.
-/

namespace BlockGraph

namespace Request

def Declares (qs : List Request) (l : LayoutId) : Prop :=
  ∃ earlier name later s s', qs = earlier ++ .act (.declareClass name) :: later ∧
    Runs (runAll earlier) {} () s ∧ Runs (Builder.declareClass name) s l s'

/-- Only layouts that were reserved for classes get their fields. -/
def Disciplined (qs : List Request) : Prop :=
  ∀ earlier l fields later, qs = earlier ++ .act (.defineClass l fields) :: later → Declares earlier l

def Answers (qs : List Request) (result : ValueType) (l : LayoutId) : Prop :=
  ∃ earlier later s s', qs = earlier ++ .act (.returnLayout result) :: later ∧
    Runs (runAll earlier) {} () s ∧ Runs (Builder.returnLayout result) s l s'

def results (qs : List Request) : List ValueType := qs.filterMap result?

variable {qs : List Request} {p q : Request}

theorem concat_eq_append_cons {earlier later : List Request} (h : qs ++ [q] = earlier ++ p :: later) :
    later = [] ∧ qs = earlier ∧ q = p ∨ ∃ rest, later = rest ++ [q] ∧ qs = earlier ++ p :: rest := by
  rcases List.eq_nil_or_concat later with rfl | ⟨rest, r, rfl⟩
  · obtain ⟨rfl, hq⟩ := List.append_inj' h rfl
    exact .inl ⟨rfl, rfl, by simpa using hq⟩
  · rw [List.concat_eq_append, ← List.cons_append, ← List.append_assoc] at h
    obtain ⟨rfl, hq⟩ := List.append_inj' h rfl
    obtain rfl : q = r := by simpa using hq
    exact .inr ⟨rest, List.concat_eq_append, rfl⟩

theorem Declares.concat {l : LayoutId} (h : Declares qs l) (q : Request) : Declares (qs ++ [q]) l := by
  obtain ⟨earlier, name, later, s, s', rfl, hs, hl⟩ := h
  exact ⟨earlier, name, later ++ [q], s, s', by simp, hs, hl⟩

theorem Disciplined.of_concat (h : Disciplined (qs ++ [q])) : Disciplined qs := by
  rintro earlier l fields later rfl
  exact h earlier l fields (later ++ [q]) (by simp)

theorem Disciplined.of_prefix {before : List Request} (h : Disciplined qs) (hp : before <+: qs) :
    Disciplined before := by
  obtain ⟨after, rfl⟩ := hp
  rintro earlier l fields later rfl
  exact h earlier l fields (later ++ after) (by simp)

theorem Disciplined.concat (h : Disciplined qs) (hq : ∀ l, q.Defines l → Declares qs l) :
    Disciplined (qs ++ [q]) := by
  intro earlier l fields later heq
  rcases concat_eq_append_cons heq with ⟨-, rfl, rfl⟩ | ⟨rest, -, rfl⟩
  · exact hq l ⟨fields, rfl⟩
  · exact h earlier l fields rest rfl

end Request

namespace Builder

variable {s s' : Builder} {q : Request} {qs : List Request} {l : LayoutId} {u : Unit}
  {t : ValueType}

theorem Registers.get? {result : ValueType} (h : s.Registers result s') (t : ValueType) :
    s'.returnLayouts.get? t = if t = result then some s.layoutId else s.returnLayouts.get? t :=
  OrderedMap.get?_of_entries h.2.2.2 h.1 t

theorem get?_of_known (h : s.returnLayouts.get? t = some l) : t ∈ s.returnLayouts.keys :=
  List.mem_map_of_mem (OrderedMap.mem_of_get? h)

theorem Lays.get? (h : Lays s q s') (ht : s.returnLayouts.get? t = some l) :
    s'.returnLayouts.get? t = some l := by
  cases h with
  | same _ hsame => rw [hsame.2, ht]
  | register hnew =>
    rw [hnew.get?, if_neg, ht]
    rintro rfl
    exact hnew.1 (get?_of_known ht)
  | known _ | declare _ | keep _ | define _ => exact ht

theorem Lays.mem_keys (h : Lays s q s') (t : ValueType) :
    t ∈ s'.returnLayouts.keys ↔ t ∈ s.returnLayouts.keys ∨ q.result? = some t := by
  cases h with
  | same hq hsame => simp [hsame.2, hq]
  | known hmem =>
    simp only [Request.result?, Option.some.injEq]
    constructor
    · exact .inl
    · rintro (ht | rfl)
      · exact ht
      · exact hmem
  | register hnew =>
    simp only [Request.result?, Option.some.injEq, OrderedMap.keys, hnew.2.2.2, List.map_append,
      List.mem_append, List.map_cons, List.map_nil, List.mem_singleton]
    exact or_congr_right eq_comm
  | declare _ | keep _ | define _ => simp [Request.result?, appendLayout, setFields]

/-- The registry and the layouts agree: a registered layout is as it was made, every layout to return
through is registered, and there are as many of them. -/
structure Registry (s : Builder) : Prop where
  returning : s.Returning
  owned : ∀ l L, s.graph.layout? l = some L → L.origin = .ofReturn →
    ∃ t, s.returnLayouts.get? t = some l
  count : (s.graph.layouts.map (·.origin)).count .ofReturn = s.returnLayouts.entries.length

theorem origins_setFields (s : Builder) (l : LayoutId) (fields : List ValueType) :
    (s.setFields l fields).graph.layouts.map (·.origin) = s.graph.layouts.map (·.origin) := by
  apply List.ext_getElem?
  intro n
  simp only [setFields, Graph.modifyLayout, List.getElem?_map, List.getElem?_modify]
  cases s.graph.layouts[n]? with
  | none => rfl
  | some L =>
    simp only [Option.map_some]
    split <;> rfl

theorem Registry.append (h : s.Registry) {L : Layout} (hL : L.origin ≠ .ofReturn) :
    (s.appendLayout L).Registry := by
  refine ⟨fun t l ht => appendLayout_layout?_of_some (h.returning t l ht), fun l K hK hreturn => ?_, ?_⟩
  · rw [appendLayout_layout?] at hK
    split at hK
    · obtain rfl := Option.some.inj hK
      exact absurd hreturn hL
    · exact h.owned l K hK hreturn
  · simpa [appendLayout, List.count_singleton, hL] using h.count

theorem Registry.lays (h : s.Registry) (hq : Lays s q s')
    (hclass : ∀ l, q.Defines l → ∀ L, s.graph.layout? l = some L → L.origin ≠ .ofReturn) :
    s'.Registry := by
  cases hq with
  | same _ hsame =>
    refine ⟨fun t l ht => ?_, fun l L hL hreturn => ?_, by rw [hsame.1, hsame.2, h.count]⟩
    · rw [Graph.layout?, hsame.1]
      exact h.returning t l (hsame.2 ▸ ht)
    · rw [Graph.layout?, hsame.1] at hL
      rw [hsame.2]
      exact h.owned l L hL hreturn
  | known _ => exact h
  | @register result _ hnew =>
    refine ⟨fun t l ht => ?_, fun l L hL hreturn => ?_, ?_⟩
    · rw [hnew.get?] at ht
      rw [hnew.2.1]
      split at ht
      case isTrue heq =>
        obtain rfl := Option.some.inj ht
        rw [heq, appendLayout_layout?, if_pos rfl]
      case isFalse => exact appendLayout_layout?_of_some (h.returning t l ht)
    · rw [hnew.2.1, appendLayout_layout?] at hL
      split at hL
      case isTrue heq => exact ⟨result, by rw [hnew.get?, if_pos rfl, heq]⟩
      case isFalse =>
        obtain ⟨t, ht⟩ := h.owned l L hL hreturn
        exact ⟨t, (Lays.register hnew).get? ht⟩
    · rw [hnew.2.1, hnew.2.2.2]
      have horigin : (Builder.returning s.layoutId result).origin = .ofReturn := rfl
      simpa [appendLayout, horigin] using h.count
  | declare name => exact h.append (by simp)
  | keep fields => exact h.append (by simp)
  | @define k K fields hK =>
    refine ⟨fun t l ht => ?_, fun l L hL hreturn => ?_, by rw [origins_setFields]; exact h.count⟩
    · have hl := h.returning t l ht
      have hne : l ≠ k := by
        rintro rfl
        exact hclass l ⟨fields, rfl⟩ _ hl rfl
      rw [setFields_layout?, hl, Option.map_some, if_neg hne]
    · rw [setFields_layout?] at hL
      obtain ⟨L', hL', rfl⟩ := Option.map_eq_some_iff.1 hL
      refine h.owned l L' hL' ?_
      rw [← hreturn]
      split <;> rfl

theorem origin_of_declares (h : Runs (Request.runAll qs) {} u s) (hl : Request.Declares qs l) :
    ∃ L name, s.graph.layout? l = some L ∧ L.origin = .ofClass name := by
  obtain ⟨earlier, name, later, t, t', rfl, ht, hdeclare⟩ := hl
  obtain ⟨t₀, hearlier, hrest⟩ := runAll_append.1 h
  obtain ⟨-, rfl⟩ := Runs.unique ht hearlier
  obtain ⟨t₁, hq, hlater⟩ := Runs.forM_cons.1 hrest
  obtain ⟨k, hk, -⟩ := Runs.map_iff.1 hq
  obtain ⟨-, rfl⟩ := runs_declareClass.1 hk
  obtain ⟨rfl, -⟩ := runs_declareClass.1 hdeclare
  obtain ⟨L, hL, horigin, -⟩ := layout?_runAll hlater (l := t.layoutId) (L := ⟨[], .ofClass name⟩)
    (by rw [appendLayout_layout?, if_pos rfl])
  exact ⟨L, name, hL, horigin⟩

theorem registry_runAll (hd : Request.Disciplined qs) (h : Runs (Request.runAll qs) {} u s) :
    s.Registry := by
  induction qs using List.reverseRecOn generalizing s with
  | nil =>
    obtain rfl : s = {} := Runs.forM_nil.1 h
    exact ⟨fun t l ht => (nomatch ht), fun l L hL => (nomatch hL), rfl⟩
  | append_singleton qs q ih =>
    obtain ⟨t, hqs, hq⟩ := runAll_concat.1 h
    refine (ih hd.of_concat hqs).lays (lays_request hq) fun l ⟨fields, hdef⟩ L hL => ?_
    obtain ⟨L', name, hL', horigin⟩ := origin_of_declares hqs (hd qs l fields [] (by rw [hdef]))
    obtain rfl := Option.some.inj (hL.symm.trans hL')
    simp [horigin]

theorem mem_keys_runAll (h : Runs (Request.runAll qs) {} u s) (t : ValueType) :
    t ∈ s.returnLayouts.keys ↔ t ∈ Request.results qs := by
  induction qs using List.reverseRecOn generalizing s with
  | nil =>
    obtain rfl : s = {} := Runs.forM_nil.1 h
    exact Iff.rfl
  | append_singleton qs q ih =>
    obtain ⟨s₁, hqs, hq⟩ := runAll_concat.1 h
    rw [(lays_request hq).mem_keys, ih hqs, Request.results, Request.results, List.filterMap_append,
      List.mem_append]
    simp

theorem get?_runAll (h : Runs (Request.runAll qs) s u s') (ht : s.returnLayouts.get? t = some l) :
    s'.returnLayouts.get? t = some l := by
  induction qs generalizing s with
  | nil =>
    obtain rfl : s' = s := Runs.forM_nil.1 h
    exact ht
  | cons q qs ih =>
    obtain ⟨s₁, hq, hqs⟩ := Runs.forM_cons.1 h
    exact ih hqs ((lays_request hq).get? ht)

theorem get?_of_answers (h : Runs (Request.runAll qs) {} u s) (ht : Request.Answers qs t l) :
    s.returnLayouts.get? t = some l := by
  obtain ⟨earlier, later, s₁, s₂, rfl, hs₁, hanswer⟩ := ht
  obtain ⟨s₀, hearlier, hrest⟩ := runAll_append.1 h
  obtain ⟨-, rfl⟩ := Runs.unique hs₁ hearlier
  obtain ⟨s₃, hq, hlater⟩ := Runs.forM_cons.1 hrest
  obtain ⟨k, hk, -⟩ := Runs.map_iff.1 hq
  obtain ⟨rfl, rfl⟩ := Runs.unique hanswer hk
  refine get?_runAll hlater ?_
  rcases runs_returnLayout.1 hanswer with ⟨hknown, rfl⟩ | ⟨rfl, hnew⟩
  · exact hknown
  · rw [hnew.get?, if_pos rfl]

theorem answers_of_mem (h : Runs (Request.runAll qs) {} u s) (ht : t ∈ Request.results qs) :
    ∃ l, Request.Answers qs t l := by
  obtain ⟨q, hq, hresult⟩ := List.mem_filterMap.1 ht
  obtain rfl : q = .act (.returnLayout t) := by
    cases q with
    | act a => cases a <;> simp_all [Request.result?]
    | _ => simp [Request.result?] at hresult
  obtain ⟨earlier, later, rfl⟩ := List.append_of_mem hq
  obtain ⟨s₀, hearlier, hrest⟩ := runAll_append.1 h
  obtain ⟨s₁, hq, -⟩ := Runs.forM_cons.1 hrest
  obtain ⟨l, hl, -⟩ := Runs.map_iff.1 hq
  exact ⟨l, earlier, later, s₀, s₁, rfl, hearlier, hl⟩

theorem answers_of_get? (h : Runs (Request.runAll qs) {} u s) (ht : s.returnLayouts.get? t = some l) :
    Request.Answers qs t l := by
  obtain ⟨k, hk⟩ := answers_of_mem h ((mem_keys_runAll h t).1 (get?_of_known ht))
  obtain rfl := Option.some.inj (ht.symm.trans (get?_of_answers h hk))
  exact hk

/-- The layouts to return through, after the requests and their answers: which layout was the answer
for which type of result. -/
structure OneForEach (qs : List Request) (s : Builder) : Prop where
  answered : ∀ t ∈ Request.results qs, ∃ l, Request.Answers qs t l
  same_iff : ∀ t l t' l', Request.Answers qs t l → Request.Answers qs t' l' → (l = l' ↔ t = t')
  again : ∀ t l, Request.Answers qs t l → Runs (returnLayout t) s l s
  layout : ∀ t l, Request.Answers qs t l → s.graph.layout? l =
    some ⟨[.blockRef (.object l :: if t.isVoid then [] else [t])], .ofReturn⟩
  owner : ∀ l L, s.graph.layout? l = some L → L.origin = .ofReturn → ∃! t, Request.Answers qs t l
  count : (s.graph.layouts.map (·.origin)).count .ofReturn = (Request.results qs).dedup.length

theorem oneForEach (hd : Request.Disciplined qs) (h : Runs (Request.runAll qs) {} u s) :
    OneForEach qs s := by
  have hreg := registry_runAll hd h
  have hlayout (t : ValueType) (l : LayoutId) (ht : Request.Answers qs t l) :
      s.graph.layout? l = some (returning l t) := hreg.returning t l (get?_of_answers h ht)
  have hsame (t : ValueType) (l : LayoutId) (t' : ValueType) (ht : Request.Answers qs t l)
      (ht' : Request.Answers qs t' l) : t = t' := by
    -- The field of the layout tells the type of the result.
    have heq := Option.some.inj ((hlayout t l ht).symm.trans (hlayout t' l ht'))
    simp only [returning, Layout.mk.injEq, List.cons.injEq, ValueType.blockRef.injEq] at heq
    exact continuation_inj heq.1.1
  refine ⟨fun t ht => answers_of_mem h ht, fun t l t' l' ht ht' => ⟨?_, ?_⟩, fun t l ht => ?_, hlayout,
    fun l L hL hreturn => ?_, ?_⟩
  · rintro rfl
    exact hsame t l t' ht ht'
  · rintro rfl
    exact Option.some.inj ((get?_of_answers h ht).symm.trans (get?_of_answers h ht'))
  · exact runs_returnLayout.2 (.inl ⟨get?_of_answers h ht, rfl⟩)
  · obtain ⟨t, ht⟩ := hreg.owned l L hL hreturn
    exact ⟨t, answers_of_get? h ht, fun t' ht' => hsame t' l t ht' (answers_of_get? h ht)⟩
  · have hperm : s.returnLayouts.keys.Perm (Request.results qs).dedup := by
      refine (List.perm_ext_iff_of_nodup s.returnLayouts.nodup (List.nodup_dedup _)).2 fun t => ?_
      rw [List.mem_dedup]
      exact mem_keys_runAll h t
    rw [hreg.count, ← hperm.length_eq, OrderedMap.keys, List.length_map]

end Builder

end BlockGraph

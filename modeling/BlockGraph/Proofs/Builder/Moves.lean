import BlockGraph.Proofs.Builder.Steps

/-!
How the open blocks of a graph move on while code is added. A move takes over some open blocks and
gives back others; every block that it does not take over stays as it is, and every new block is
referred to.
-/

namespace BlockGraph

namespace Graph

def IsOpen (g : Graph) (b : BlockId) : Prop := ∃ B, g.block? b = some B ∧ B.isTerminated = false

theorem IsOpen.isTerminated {g : Graph} {b : BlockId} {B : Block} (h : g.IsOpen b)
    (hB : g.block? b = some B) : B.isTerminated = false := by
  obtain ⟨B', hB', hopen⟩ := h
  obtain rfl := Option.some.inj (hB.symm.trans hB')
  exact hopen

def Opens (g : Graph) (bs : List BlockId) : Prop := bs.Nodup ∧ ∀ b, g.IsOpen b ↔ b ∈ bs

theorem Opens.perm {g : Graph} {bs cs : List BlockId} (h : g.Opens bs) (hp : bs.Perm cs) :
    g.Opens cs :=
  ⟨hp.nodup_iff.1 h.1, fun b => (h.2 b).trans hp.mem_iff⟩

theorem Extends.not_isOpen {g g' : Graph} (h : g.Extends g') {b : BlockId}
    (hB : ∃ B, g.block? b = some B) (hb : ¬g.IsOpen b) : ¬g'.IsOpen b := by
  rintro ⟨B', hB', hopen⟩
  obtain ⟨B, hB⟩ := hB
  obtain ⟨B'', hB'', hext⟩ := h b B hB
  obtain rfl := Option.some.inj (hB'.symm.trans hB'')
  have hclosed : B.isTerminated = true := by
    by_contra hf
    exact hb ⟨B, hB, by simpa using hf⟩
  obtain ⟨-, ht, hf⟩ := hext.closed hclosed
  simp [Block.isTerminated, ht, hf] at hopen hclosed
  simp [hopen] at hclosed

end Graph

namespace Builder

def Returning (s : Builder) : Prop :=
  ∀ t l, s.returnLayouts.get? t = some l → s.graph.layout? l = some (returning l t)

/-- From `s` to `s'` the open blocks `X` are taken over and `Y` are left in their place. Blocks that
nothing from `X` leads to are the ones in `E`. -/
structure Moves (E X : List BlockId) (s : Builder) (Y : List BlockId) (s' : Builder) : Prop where
  steps : Steps s s'
  keeps : ∀ c B, c ∉ X → s.graph.block? c = some B → s'.graph.block? c = some B
  fresh : ∀ c ∈ Y, c ∈ X ∨ s.graph.block? c = none ∧ s'.graph.block? c ≠ none
  opens : ∀ R, s.graph.Opens (X ++ R) → s'.graph.Opens (Y ++ R)
  reach : ∀ c, s.graph.block? c = none → s'.graph.block? c ≠ none →
    ∃ x, (x ∈ E ∨ x ∈ X) ∧ s'.graph.Reaches x c
  layouts : ∀ l L, s.graph.layout? l = some L → s'.graph.layout? l = some L
  returns : ∀ t l, s.returnLayouts.get? t = some l → s'.returnLayouts.get? t = some l
  returning : s.Returning → s'.Returning

namespace Moves

variable {E E' X Y Z : List BlockId} {s s' s'' : Builder}

theorem graph_extends (h : Moves E X s Y s') : s.graph.Extends s'.graph := h.steps.graph_extends

theorem refl (X : List BlockId) (s : Builder) : Moves [] X s X s where
  steps := .refl
  keeps _ _ _ h := h
  fresh _ h := .inl h
  opens _ h := h
  reach _ h h' := absurd h h'
  layouts _ _ h := h
  returns _ _ h := h
  returning h := h

theorem trans (h : Moves E X s Y s') (k : Moves E' Y s' Z s'') : Moves (E ++ E') X s Z s'' where
  steps := h.steps.trans k.steps
  keeps c B hc hB := by
    refine k.keeps c B (fun hY => ?_) (h.keeps c B hc hB)
    rcases h.fresh c hY with hX | ⟨hnone, -⟩
    · exact hc hX
    · simp [hnone] at hB
  fresh c hc := by
    rcases k.fresh c hc with hY | ⟨hnone, hsome⟩
    · rcases h.fresh c hY with hX | ⟨hnone, hsome⟩
      · exact .inl hX
      · obtain ⟨B, hB⟩ := Option.ne_none_iff_exists'.1 hsome
        obtain ⟨B', hB', -⟩ := k.graph_extends c B hB
        exact .inr ⟨hnone, by simp [hB']⟩
    · refine .inr ⟨?_, hsome⟩
      by_contra hs
      obtain ⟨B, hB⟩ := Option.ne_none_iff_exists'.1 hs
      obtain ⟨B', hB', -⟩ := h.graph_extends c B hB
      simp [hnone] at hB'
  opens R hR := k.opens R (h.opens R hR)
  reach c hnone hsome := by
    have lift {x c : BlockId} (hx : (x ∈ E ∨ x ∈ X) ∧ s'.graph.Reaches x c) :
        (x ∈ E ++ E' ∨ x ∈ X) ∧ s''.graph.Reaches x c :=
      ⟨hx.1.imp_left (List.mem_append_left _), k.graph_extends.reaches hx.2⟩
    by_cases hc : s'.graph.block? c = none
    · obtain ⟨x, hx | hx, hreach⟩ := k.reach c hc hsome
      · exact ⟨x, .inl (List.mem_append_right _ hx), hreach⟩
      · rcases h.fresh x hx with hX | ⟨hnone, hsome⟩
        · exact ⟨x, .inr hX, hreach⟩
        · obtain ⟨y, hy⟩ := h.reach x hnone hsome
          exact ⟨y, (lift hy).1, (lift hy).2.trans hreach⟩
    · obtain ⟨x, hx⟩ := h.reach c hnone hc
      exact ⟨x, lift hx⟩
  layouts l L hl := k.layouts l L (h.layouts l L hl)
  returns t l ht := k.returns t l (h.returns t l ht)
  returning hs := k.returning (h.returning hs)

theorem frame (h : Moves E X s Y s') (Z : List BlockId) : Moves E (X ++ Z) s (Y ++ Z) s' where
  steps := h.steps
  keeps c B hc := h.keeps c B fun hX => hc (List.mem_append_left _ hX)
  fresh c hc := by
    rcases List.mem_append.1 hc with hY | hZ
    · exact (h.fresh c hY).imp_left (List.mem_append_left _)
    · exact .inl (List.mem_append_right _ hZ)
  opens R hR := by
    rw [List.append_assoc] at hR ⊢
    exact h.opens _ hR
  reach c hnone hsome := by
    obtain ⟨x, hx, hreach⟩ := h.reach c hnone hsome
    exact ⟨x, hx.imp_right (List.mem_append_left _), hreach⟩
  layouts := h.layouts
  returns := h.returns
  returning := h.returning

theorem perm {X' Y' : List BlockId} (h : Moves E X s Y s') (hX : X.Perm X') (hY : Y.Perm Y') :
    Moves E X' s Y' s' where
  steps := h.steps
  keeps c B hc := h.keeps c B fun hX' => hc (hX.mem_iff.1 hX')
  fresh c hc := (h.fresh c (hY.mem_iff.2 hc)).imp_left hX.mem_iff.1
  opens R hR := (h.opens R (hR.perm (hX.symm.append_right R))).perm (hY.append_right R)
  reach c hnone hsome := by
    obtain ⟨x, hx, hreach⟩ := h.reach c hnone hsome
    exact ⟨x, hx.imp_right hX.mem_iff.1, hreach⟩
  layouts := h.layouts
  returns := h.returns
  returning := h.returning

theorem discharge {e : BlockId} (h : Moves (e :: E) X s Y s')
    (he : ∃ x, (x ∈ E ∨ x ∈ X) ∧ s'.graph.Reaches x e) : Moves E X s Y s' where
  steps := h.steps
  keeps := h.keeps
  fresh := h.fresh
  opens := h.opens
  reach c hnone hsome := by
    obtain ⟨x, hx, hreach⟩ := h.reach c hnone hsome
    simp only [List.mem_cons, or_assoc] at hx
    rcases hx with rfl | hx
    · obtain ⟨y, hy, hy'⟩ := he
      exact ⟨y, hy, hy'.trans hreach⟩
    · exact ⟨x, hx, hreach⟩
  layouts := h.layouts
  returns := h.returns
  returning := h.returning

end Moves

section Primitive

variable {s s' : Builder} {b : BlockId} {B : Block} {f : Block → Block}

theorem isOpen_updateBlock (hB : s.graph.block? b = some B) (c : BlockId) :
    (s.updateBlock b f).graph.IsOpen c ↔
      (c = b ∧ (f B).isTerminated = false) ∨ (c ≠ b ∧ s.graph.IsOpen c) := by
  unfold Graph.IsOpen
  rw [updateBlock_block?]
  by_cases hc : c = b
  · subst hc
    simp [hB]
  · simp [hc]

theorem Moves.update (hB : s.graph.block? b = some B) (hstep : Step s (s.updateBlock b f))
    (hf : (f B).isTerminated = B.isTerminated) : Moves [] [b] s [b] (s.updateBlock b f) where
  steps := .single hstep
  keeps c C hc hC := by
    rw [updateBlock_block?, if_neg (by simpa using hc)]
    exact hC
  fresh _ hc := .inl hc
  opens R hR := by
    refine ⟨hR.1, fun c => ?_⟩
    rw [isOpen_updateBlock hB, hf, ← hR.2 c]
    by_cases hc : c = b
    · subst hc
      simp [Graph.IsOpen, hB]
    · simp [hc]
  reach c hnone hsome := by simp [hnone] at hsome
  layouts _ _ h := h
  returns _ _ h := h
  returning h := h

theorem Moves.shut (hB : s.graph.block? b = some B) (hstep : Step s (s.updateBlock b f))
    (hf : (f B).isTerminated = true) : Moves [] [b] s [] (s.updateBlock b f) where
  steps := .single hstep
  keeps c C hc hC := by
    rw [updateBlock_block?, if_neg (by simpa using hc)]
    exact hC
  fresh _ hc := absurd hc (by simp)
  opens R hR := by
    obtain ⟨hnodup, hmem⟩ := hR
    simp only [List.singleton_append, List.nodup_cons] at hnodup
    refine ⟨hnodup.2, fun c => ?_⟩
    have hc := hmem c
    simp only [List.singleton_append, List.mem_cons] at hc
    rw [isOpen_updateBlock hB, hf]
    by_cases hcb : c = b
    · subst hcb
      simpa using hnodup.1
    · simpa [hcb] using hc
  reach c hnone hsome := by simp [hnone] at hsome
  layouts _ _ h := h
  returns _ _ h := h
  returning h := h

theorem Moves.append {new : Block} (hid : new.id = s.graph.nextId) (hnew : new.IsEmpty) :
    Moves [s.graph.nextId] [] s [s.graph.nextId] (s.appendBlock new) where
  steps := .single (.append hid hnew)
  keeps c C _ hC := by
    rw [appendBlock_block?, if_neg]
    · exact hC
    · rintro rfl
      simp [Graph.block?_nextId] at hC
  fresh c hc := by
    obtain rfl := List.mem_singleton.1 hc
    exact .inr ⟨s.graph.block?_nextId, by simp⟩
  opens R hR := by
    obtain ⟨hnodup, hmem⟩ := hR
    have hfresh : s.graph.nextId ∉ R := by
      intro hR
      obtain ⟨B, hB, -⟩ := (hmem _).2 hR
      simp [Graph.block?_nextId] at hB
    refine ⟨List.nodup_cons.2 ⟨hfresh, hnodup⟩, fun c => ?_⟩
    have hc := hmem c
    simp only [List.nil_append, Graph.IsOpen] at hc
    simp only [Graph.IsOpen, appendBlock_block?, List.singleton_append, List.mem_cons]
    by_cases hcn : c = s.graph.nextId
    · simp [hcn, Block.isTerminated, hnew.2.1, hnew.2.2]
    · simpa [hcn] using hc
  reach c hnone hsome := by
    rw [appendBlock_block?] at hsome
    split at hsome
    case isTrue hc => exact ⟨c, .inl (by simp [hc]), .refl⟩
    case isFalse => exact absurd hnone hsome
  layouts _ _ h := h
  returns _ _ h := h
  returning h := h

theorem Moves.quiet (hstep : Step s s') (hblocks : s'.graph.blocks = s.graph.blocks)
    (hlayouts : ∀ l L, s.graph.layout? l = some L → s'.graph.layout? l = some L)
    (hreturns : ∀ t l, s.returnLayouts.get? t = some l → s'.returnLayouts.get? t = some l)
    (hreturning : s.Returning → s'.Returning) : Moves [] [] s [] s' where
  steps := .single hstep
  keeps c B _ hB := by simpa [Graph.block?, hblocks] using hB
  fresh _ hc := absurd hc (by simp)
  opens R hR := by simpa [Graph.Opens, Graph.IsOpen, Graph.block?, hblocks] using hR
  reach c hnone hsome := by simp_all [Graph.block?]
  layouts := hlayouts
  returns := hreturns
  returning := hreturning

theorem Moves.push {i : Instruction} (hB : s.graph.block? b = some B)
    (hopen : B.isTerminated = false) (hi : B.Admits s.graph i) :
    Moves [] [b] s [b] (s.updateBlock b (·.push i)) :=
  .update hB (.push hB hopen hi) rfl

theorem Moves.close {t : Terminator} (hB : s.graph.block? b = some B)
    (hopen : B.isTerminated = false) (ht : B.Leaves t) :
    Moves [] [b] s [] (s.updateBlock b (·.close t)) :=
  .shut hB (.close hB hopen ht) rfl

theorem Moves.relocate (hB : s.graph.block? b = some B) (l : Locals) :
    Moves [] [b] s [b] (s.updateBlock b (·.withLocals l)) :=
  .update hB (.relocate b l) rfl

theorem Moves.report (s : Builder) (ds : List Diagnostic) :
    Moves [] [] s [] { s with diagnostics := s.diagnostics ++ ds } :=
  .quiet (.report ds) rfl (fun _ _ h => h) (fun _ _ h => h) fun h => h

theorem Moves.layout (s : Builder) (L : Layout) : Moves [] [] s [] (s.appendLayout L) :=
  .quiet (.layout L) rfl (fun _ _ h => appendLayout_layout?_of_some h) (fun _ _ h => h)
    fun h t l hl => appendLayout_layout?_of_some (h t l hl)

theorem Moves.register {result : ValueType} (h : s.Registers result s') :
    Moves [] [] s [] s' := by
  have ⟨hnew, hgraph, _, hentries⟩ := h
  have hget (t : ValueType) := OrderedMap.get?_of_entries hentries hnew t
  have hlayouts (l : LayoutId) (L : Layout) (hL : s.graph.layout? l = some L) :
      s'.graph.layout? l = some L := by
    rw [hgraph]
    exact appendLayout_layout?_of_some hL
  refine .quiet (.register h) (by rw [hgraph]; rfl) hlayouts (fun t l ht => ?_) fun hs t l ht => ?_
  · rw [hget, if_neg]
    · exact ht
    · rintro rfl
      simp [OrderedMap.get?_eq_none_iff.2 hnew] at ht
  · rw [hget] at ht
    split at ht
    case isTrue heq =>
      obtain rfl := Option.some.inj ht
      rw [hgraph, appendLayout_layout?, if_pos rfl, heq]
    case isFalse => exact hlayouts l _ (hs t l ht)

end Primitive

end Builder

end BlockGraph

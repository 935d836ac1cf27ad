import BlockGraph.Proofs.Lowering.Types
import BlockGraph.Proofs.Totality.Blocks
import BlockGraph.Proofs.Totality.Heap

namespace BlockGraph

def Graph.Last (g : Graph) (b : BlockId) (t : ValueType) : Prop :=
  ∃ B r, g.block? b = some B ∧ B.lastRegister? = some r ∧ B.typeOf? r = some t

namespace Lowering

open Builder Analysis

structure Knows (D : Declared) (s : State) : Prop where
  fields : ∀ c ts, D.fields? c = some ts → ∃ l L, s.classes[c.index]? = some l ∧
    s.graph.layout? l = some L ∧ loweredAll? s ts = some L.fields
  functions : ∀ f t, D.functionType? f = some t → ∃ e E, s.functions[f.index]? = some e ∧
    s.graph.block? e.entry = some E ∧ lowered? s t = some (.blockRef E.parameterTypes)
  returning : s.toBuilder.Returning

theorem Knows.mono {D : Declared} {s s' : State} (h : Knows D s) (hs : Grows s s') : Knows D s' := by
  refine ⟨fun c ts hc => ?_, fun f t hf => ?_, hs.returning h.returning⟩
  · obtain ⟨l, L, hl, hL, hfields⟩ := h.fields c ts hc
    exact ⟨l, L, hs.classes _ l hl, hs.layouts l L hL, hs.loweredAll? ts _ hfields⟩
  · obtain ⟨e, E, he, hE, htype⟩ := h.functions f t hf
    obtain ⟨E', hE', hext⟩ := hs.graph _ E hE
    refine ⟨e, E', hs.functions _ e he, hE', ?_⟩
    rw [hext.parameterTypes]
    exact hs.lowered? t _ htype

theorem Rebuilds.addsNoCode {s s' : State} (h : Rebuilds [] s [] s') :
    s.graph.AddsNoCode s'.graph := by
  intro b B' hB' i hi
  obtain ⟨t, ht, rfl⟩ := h
  cases hB : s.graph.block? b with
  | none =>
    obtain ⟨x, hx, -⟩ := ht.reach b hB (by simp [hB'])
    simp at hx
  | some B =>
    obtain rfl := Option.some.inj ((ht.keeps b B (by simp) hB).symm.trans hB')
    exact ⟨B, rfl, hi⟩

structure Builds (s s' : State) : Prop extends Grows s s' where
  heap : s.graph.HeapTyped → s'.graph.HeapTyped

namespace Builds

variable {s s' s'' : State}

theorem refl (s : State) : Builds s s := ⟨.refl s, id⟩

theorem trans (h : Builds s s') (k : Builds s' s'') : Builds s s'' :=
  ⟨h.toGrows.trans k.toGrows, fun hs => k.heap (h.heap hs)⟩

theorem of_run {α : Type} {x : BuildM α} {a : α} {t : Builder} {X Y : List BlockId}
    (hx : KeepsHeap x) (hrun : Runs x s.toBuilder a t) (hmoves : Moves [] X s.toBuilder Y t) :
    Builds s { s with toBuilder := t } :=
  ⟨(Rebuilds.of_moves hmoves).grows, fun hs => hx hrun hs⟩

theorem of_settled (h : Rebuilds [] s [] s') : Builds s s' :=
  ⟨h.grows, fun hs => hs.same h.grows.graph h.grows.layouts h.addsNoCode⟩

end Builds

variable (D : Declared) (ls : List LoopFrame) (slot : Option ValueType)

structure Ready (s : State) (b : BlockId) (Γ : Context) (σ : List ValueType) : Prop where
  knows : Knows D s
  loops : s.loops = ls
  fits : s.graph.Fits (lowered? s) b Γ σ slot

structure After (s s' : State) (b : BlockId) (Γ : Context) (σ : List ValueType) : Prop where
  grows : Builds s s'
  ready : Ready D ls slot s' b Γ σ

def Yields (s : State) (b : BlockId) (t : SourceType) : Prop :=
  ∃ vt, lowered? s t = some vt ∧ s.graph.Last b vt

variable {D ls slot} {s s' : State} {b : BlockId} {Γ Γ' : Context} {σ τ : List ValueType}
  {r : Register} {t : SourceType} {vt : ValueType}

theorem After.trans {s'' : State} {c : BlockId} (h : Builds s s')
    (k : After D ls slot s' s'' c Γ σ) : After D ls slot s s'' c Γ σ :=
  ⟨h.trans k.grows, k.ready⟩

namespace Ready

theorem grow (h : Ready D ls slot s b Γ σ) (hs : Builds s s') (hloops : s'.loops = s.loops)
    (hb : ∀ B, s.graph.block? b = some B → s'.graph.block? b = some B) :
    After D ls slot s s' b Γ σ :=
  ⟨hs, h.knows.mono hs.toGrows, hloops.trans h.loops, h.fits.mono hs.lowered? hb⟩

theorem change (h : Ready D ls slot s b Γ σ) {t : Builder} (hmoves : Moves [] [b] s.toBuilder [b] t)
    (hheap : s.graph.HeapTyped → t.graph.HeapTyped)
    (hb : t.graph.Fits (lowered? s) b Γ' τ slot) :
    After D ls slot s { s with toBuilder := t } b Γ' τ := by
  have hs : Grows s { s with toBuilder := t } := (Rebuilds.of_moves hmoves).grows
  exact ⟨⟨hs, hheap⟩, h.knows.mono hs, h.loops, hb.mono hs.lowered? fun _ hB => hB⟩

theorem relocate (h : Ready D ls slot s b Γ σ) {B : Block} (hB : s.graph.block? b = some B)
    {l : Locals} (hb : (B.withLocals l).Holds (lowered? s) Γ' τ slot) :
    After D ls slot s { s with toBuilder := s.toBuilder.updateBlock b (·.withLocals l) } b Γ' τ := by
  obtain ⟨B', hB', hopen, -⟩ := h.fits
  obtain rfl := Option.some.inj (hB.symm.trans hB')
  exact h.change (.relocate hB l) (heapTyped_withLocals · hB l) ⟨_, updateBlock_self hB _, hopen, hb⟩

theorem pushed (h : Ready D ls slot s b Γ σ) {i : Instruction} (hi : s.graph.Accesses b i)
    (hmoves : Moves [] [b] s.toBuilder [b] (s.toBuilder.updateBlock b (·.push i))) :
    ∃ s' : State, s' = { s with toBuilder := s.toBuilder.updateBlock b (·.push i) } ∧
      After D ls slot s s' b Γ σ ∧ s'.graph.Last b i.type ∧
      ∀ B, s.graph.block? b = some B → s'.graph.HasType b ⟨B.registerCount⟩ i.type := by
  obtain ⟨B, hB, hopen, hholds⟩ := h.fits
  have hB' := updateBlock_self hB (·.push i)
  refine ⟨_, rfl, h.change hmoves (heapTyped_push · hB hopen hi) ⟨_, hB', hopen, hholds.push _⟩,
    ⟨_, _, hB', by simp [Block.lastRegister?], Block.typeOf?_push_last B i⟩, fun C hC => ?_⟩
  obtain rfl := Option.some.inj (hB.symm.trans hC)
  exact ⟨_, hB', Block.typeOf?_push_last B i⟩

theorem emit (h : Ready D ls slot s b Γ σ) (op : Operation) (vt : ValueType)
    (hop : op.isPlain = true) (hops : ∀ o ∈ op.operands, ∃ t, s.graph.HasType b o t)
    (hi : s.graph.Accesses b ⟨op, vt⟩) :
    Succeeds (liftM (emit b op vt) : LowerM Register) s fun r s' =>
      After D ls slot s s' b Γ σ ∧ s'.graph.Last b vt ∧ s'.graph.HasType b r vt := by
  obtain ⟨B, hB, hopen, -⟩ := h.fits
  have hcontains : ∀ o ∈ op.operands, B.contains o = true := by
    intro o ho
    obtain ⟨t, B', hB', ht⟩ := hops o ho
    obtain rfl := Option.some.inj (hB.symm.trans hB')
    exact Block.contains_of_typeOf? ht
  have hrun : Runs (Builder.emit b op vt) s.toBuilder ⟨B.registerCount⟩ _ :=
    runs_emit.2 ⟨B, hB, hopen, hcontains, rfl, rfl⟩
  obtain ⟨_, rfl, hafter, hlast, htype⟩ := h.pushed hi (stays_emit hop hrun).toMoves
  exact ⟨_, _, Runs.lift_build_iff.2 ⟨_, hrun, rfl⟩, hafter, hlast, htype B hB⟩

theorem emitRef (h : Ready D ls slot s b Γ σ) {c : BlockId} {C : Block}
    (hC : s.graph.block? c = some C) :
    Succeeds (liftM (emitRef b c) : LowerM Register) s fun _ s' =>
      After D ls slot s s' b Γ σ ∧ s'.graph.Last b (.blockRef C.parameterTypes) := by
  obtain ⟨B, hB, hopen, -⟩ := h.fits
  have hrun : Runs (Builder.emitRef b c) s.toBuilder ⟨B.registerCount⟩ _ :=
    runs_emitRef.2 ⟨C, B, hC, hB, hopen, rfl, rfl⟩
  obtain ⟨_, rfl, hafter, hlast, -⟩ :=
    h.pushed (i := ⟨.blockRef c, .blockRef C.parameterTypes⟩) trivial (moves_emitRef hrun)
  exact ⟨_, _, Runs.lift_build_iff.2 ⟨_, hrun, rfl⟩, hafter, hlast⟩

theorem copy (h : Ready D ls slot s b Γ σ) (hr : s.graph.HasType b r vt) :
    Succeeds (liftM (copy b r) : LowerM Register) s fun _ s' =>
      After D ls slot s s' b Γ σ ∧ s'.graph.Last b vt := by
  obtain ⟨B, hB, hopen, -⟩ := h.fits
  have hrun : Runs (Builder.copy b r) s.toBuilder ⟨B.registerCount⟩ _ :=
    runs_copy.2 ⟨B, vt, hB, hopen, hr.typeOf? hB, rfl, rfl⟩
  obtain ⟨_, rfl, hafter, hlast, -⟩ :=
    h.pushed (i := ⟨.copy r, vt⟩) trivial (stays_copy hrun).toMoves
  exact ⟨_, _, Runs.lift_build_iff.2 ⟨_, hrun, rfl⟩, hafter, hlast⟩

theorem lastRegister (hlast : s.graph.Last b vt) :
    Succeeds (liftM (lastRegister b) : LowerM Register) s fun r s' =>
      s' = s ∧ s.graph.HasType b r vt := by
  obtain ⟨B, r, hB, hr, ht⟩ := hlast
  exact ⟨r, s, Runs.lift_build_iff.2 ⟨_, runs_lastRegister.2 ⟨B, hB, hr, rfl⟩, rfl⟩, rfl, B, hB, ht⟩

theorem pushLast (h : Ready D ls slot s b Γ σ) (hlast : s.graph.Last b vt) :
    Succeeds (liftM (pushLast b) : LowerM Unit) s fun _ s' =>
      After D ls slot s s' b Γ (σ ++ [vt]) := by
  obtain ⟨B, hB, hopen, hholds⟩ := h.fits
  obtain ⟨B', r, hB', hr, ht⟩ := hlast
  obtain rfl := Option.some.inj (hB.symm.trans hB')
  have hrun : Runs (Builder.pushLast b) s.toBuilder () _ := runs_pushLast.2 ⟨B, r, hB, hr, rfl⟩
  exact ⟨_, _, Runs.lift_build_iff.2 ⟨_, hrun, rfl⟩,
    h.relocate hB (hholds.withStack (hholds.stack.append (.cons ht .nil)))⟩

theorem popMany (h : Ready D ls slot s b Γ (σ ++ τ)) {n : Nat} (hn : τ.length = n) :
    Succeeds (liftM (popMany b n) : LowerM (List Register)) s fun rs s' =>
      After D ls slot s s' b Γ σ ∧ List.Forall₂ (s'.graph.HasType b) rs τ := by
  obtain ⟨B, hB, -, hholds⟩ := h.fits
  obtain ⟨rest, rs, hstack, hrest, hrs⟩ := forall₂_append_right hholds.stack
  by_cases h0 : n = 0
  · obtain rfl : τ = [] := List.length_eq_zero_iff.1 (hn.trans h0)
    obtain rfl : rs = [] := List.forall₂_nil_right_iff.1 hrs
    rw [List.append_nil] at h
    exact ⟨[], s, Runs.lift_build_iff.2 ⟨_, runs_popMany.2 (.inl ⟨h0, rfl, rfl⟩), rfl⟩,
      h.grow (.refl s) rfl fun _ hB => hB, .nil⟩
  · exact ⟨rs, _, Runs.lift_build_iff.2
      ⟨_, runs_popMany.2 (.inr ⟨h0, B, rest, hB, hstack, hrs.length_eq.trans hn, rfl⟩), rfl⟩,
      h.relocate hB (hholds.withStack hrest), hrs.imp fun _ _ hr => ⟨_, updateBlock_self hB _, hr⟩⟩

theorem pop (h : Ready D ls slot s b Γ (σ ++ [vt])) :
    Succeeds (liftM (pop b) : LowerM Register) s fun r s' =>
      After D ls slot s s' b Γ σ ∧ s'.graph.HasType b r vt := by
  obtain ⟨B, hB, -, hholds⟩ := h.fits
  obtain ⟨rest, rs, hstack, hrest, hrs⟩ := forall₂_append_right hholds.stack
  obtain ⟨r, _, hr, hnil, rfl⟩ := List.forall₂_cons_right_iff.1 hrs
  obtain rfl := List.forall₂_nil_right_iff.1 hnil
  have hrun : Runs (Builder.pop b) s.toBuilder r _ := runs_pop.2 ⟨B, rest, hB, hstack, rfl⟩
  exact ⟨r, _, Runs.lift_build_iff.2 ⟨_, hrun, rfl⟩, h.relocate hB (hholds.withStack hrest),
    ⟨_, updateBlock_self hB _, hr⟩⟩

theorem peek (h : Ready D ls slot s b Γ (σ ++ τ)) {n : Nat} (hn : τ.reverse[n]? = some vt) :
    Succeeds (liftM (peek b n) : LowerM Register) s fun r s' =>
      s' = s ∧ s.graph.HasType b r vt := by
  obtain ⟨B, hB, -, hholds⟩ := h.fits
  have hstack := List.forall₂_reverse_iff.2 hholds.stack
  rw [List.reverse_append] at hstack
  obtain ⟨hlt, hget⟩ := List.getElem?_eq_some_iff.1 hn
  have hlt' : n < (τ.reverse ++ σ.reverse).length := by
    rw [List.length_append]
    omega
  have hlen : n < B.locals.stack.reverse.length := hstack.length_eq ▸ hlt'
  have hr := hstack.get hlen hlt'
  simp only [List.get_eq_getElem, List.getElem_append_left hlt, hget] at hr
  exact ⟨_, s, Runs.lift_build_iff.2 ⟨_, runs_peek.2 ⟨B, hB, List.getElem?_eq_getElem hlen, rfl⟩, rfl⟩,
    rfl, B, hB, hr⟩

theorem jump (h : Ready D ls slot s b Γ σ) {c : BlockId}
    (hc : s.graph.Expects (lowered? s) c Γ' σ slot) (hle : Γ'.Le Γ) :
    Succeeds (liftM (jump b c) : LowerM Unit) s fun _ s' => Rebuilds [b] s [] s' ∧ Builds s s' := by
  obtain ⟨t, hrun, -⟩ := succeeds_jump h.fits hc hle
  have hmoves := (moves_jump hrun).1
  exact ⟨(), _, Runs.lift_build_iff.2 ⟨t, hrun, rfl⟩, .of_moves hmoves,
    .of_run keepsHeap_jump hrun hmoves⟩

theorem enter (h : Ready D ls slot s b Γ σ) :
    Succeeds (liftM (enter b) : LowerM BlockId) s fun c s' =>
      c ≠ b ∧ s'.graph.Holds (lowered? s') b Γ σ slot ∧ After D ls slot s s' c Γ σ ∧
        s'.graph.Expects (lowered? s') c Γ σ slot := by
  obtain ⟨c, t, hrun, hne, hholds, hc, hexp⟩ := succeeds_enter h.fits
  have hs := Builds.of_run keepsHeap_converge (runs_enter.1 hrun) (moves_enter hrun)
  exact ⟨c, _, Runs.lift_build_iff.2 ⟨t, hrun, rfl⟩, hne, hholds.mono hs.lowered? fun _ h => h,
    ⟨hs, h.knows.mono hs.toGrows, h.loops, hc.mono hs.lowered? fun _ h => h⟩,
    hexp.mono hs.lowered? (.refl _)⟩

theorem branch (h : Ready D ls slot s b Γ σ) (hr : s.graph.HasType b r vt) :
    Succeeds (liftM (branch b r) : LowerM (BlockId × BlockId)) s fun p s' =>
      (p.1 ≠ b ∧ p.2 ≠ b ∧ p.1 ≠ p.2) ∧ s'.graph.Holds (lowered? s') b Γ σ slot ∧
      After D ls slot s s' p.1 Γ σ ∧ After D ls slot s s' p.2 Γ σ ∧
      s'.graph.Expects (lowered? s') p.2 Γ σ slot := by
  obtain ⟨⟨c, d⟩, t, hrun, hne, hholds, hc, hd, hexp⟩ := succeeds_branch (r := r) h.fits
  obtain ⟨B, hB, hr⟩ := hr
  have hs := Builds.of_run keepsHeap_branch hrun
    (moves_branch hrun hB (Block.contains_of_typeOf? hr))
  have hknows := h.knows.mono hs.toGrows
  exact ⟨(c, d), _, Runs.lift_build_iff.2 ⟨t, hrun, rfl⟩, hne, hholds.mono hs.lowered? fun _ h => h,
    ⟨hs, hknows, h.loops, hc.mono hs.lowered? fun _ h => h⟩,
    ⟨hs, hknows, h.loops, hd.mono hs.lowered? fun _ h => h⟩, hexp.mono hs.lowered? (.refl _)⟩

end Ready

theorem Knows.converge (h : Knows D s) (hloops : s.loops = ls) {context : BlockId}
    (hcontext : s.graph.Holds (lowered? s) context Γ τ slot)
    {bs : List BlockId} (hnodup : bs.Nodup) {Δs : List Context}
    (hbs : List.Forall₂ (fun b Δ => s.graph.Fits (lowered? s) b Δ σ slot ∧ Γ.Le Δ) bs Δs)
    (hne : bs ≠ []) :
    Succeeds (liftM (converge context bs) : LowerM BlockId) s fun c s' =>
      After D ls slot s s' c (Γ.meet Δs) σ ∧
        s'.graph.Expects (lowered? s') c (Γ.meet Δs) σ slot := by
  obtain ⟨c, t, hrun, hfits, hexp⟩ := succeeds_converge hcontext hnodup hbs hne
  have hs := Builds.of_run keepsHeap_converge hrun (moves_converge hrun)
  exact ⟨c, _, Runs.lift_build_iff.2 ⟨t, hrun, rfl⟩,
    ⟨hs, h.mono hs.toGrows, hloops, hfits.mono hs.lowered? fun _ h => h⟩, hexp.mono hs.lowered? (.refl _)⟩

theorem Ready.convergeBranch (h : Ready D ls slot s b Γ' σ) (hr : s.graph.HasType b r vt)
    {context : BlockId} (hcontext : s.graph.Holds (lowered? s) context Γ τ slot)
    {bs : List BlockId} (hnodup : (b :: bs).Nodup) (hle : Γ.Le Γ') {Δs : List Context}
    (hbs : List.Forall₂ (fun b Δ => s.graph.Fits (lowered? s) b Δ σ slot ∧ Γ.Le Δ) bs Δs) :
    Succeeds (liftM (convergeBranch context bs b r) : LowerM (BlockId × BlockId)) s fun p s' =>
      p.1 ≠ p.2 ∧ After D ls slot s s' p.1 (Γ.meet [Γ']) σ ∧
        After D ls slot s s' p.2 (Γ.meet (Γ' :: Δs)) σ := by
  obtain ⟨⟨c, d⟩, t, hrun, hne, hc, hd⟩ :=
    succeeds_convergeBranch (r := r) hcontext hnodup h.fits hle hbs
  obtain ⟨B, hB, hr⟩ := hr
  have hs := Builds.of_run keepsHeap_convergeBranch hrun
    (moves_convergeBranch hrun hB (Block.contains_of_typeOf? hr))
  have hknows := h.knows.mono hs.toGrows
  exact ⟨(c, d), _, Runs.lift_build_iff.2 ⟨t, hrun, rfl⟩, hne,
    ⟨hs, hknows, h.loops, hc.mono hs.lowered? fun _ h => h⟩,
    ⟨hs, hknows, h.loops, hd.mono hs.lowered? fun _ h => h⟩⟩

end Lowering

end BlockGraph

import BlockGraph.Proofs.Builder.Zones
import BlockGraph.Proofs.Lowering.Calls
import BlockGraph.Proofs.Lowering.Statements

namespace BlockGraph.Lowering

open Builder

def LoopTargets.goals : LoopTargets → List BlockId
  | .known test exit => [test, exit]
  | .queued _ _ => []

structure Encloses (g : Graph) (ω : BlockId → Zone) (z : Zone) (ls : List LoopFrame) : Prop where
  waiting : ∀ b ∈ waiting ls, g.Inside ω z b
  goals : ∀ f ∈ ls, ∀ c ∈ f.targets.goals, g.Inside ω z c ∧ c ≠ z.entry

structure Heads (g : Graph) (ω : BlockId → Zone) (e : FunctionEntry) : Prop where
  zone : ω e.entry = ⟨e.entry, some (.object e.returns)⟩
  block : ∃ B, g.block? e.entry = some B ∧ B.signature = {} ∧ B.parameters ≠ []

def State.IsEntry (s : State) (c : BlockId) : Prop :=
  ∃ (k : Nat) (e : FunctionEntry), s.functions[k]? = some e ∧ e.entry = c

structure State.Zoned (ω : BlockId → Zone) (z : Zone) (s : State) : Prop where
  graph : s.graph.Zoned ω s.IsEntry z
  entries : ∀ (k : Nat) (e : FunctionEntry), s.functions[k]? = some e → Heads s.graph ω e
  loops : Encloses s.graph ω z s.loops

section Growth

variable {ω ω' : BlockId → Zone} {z : Zone} {g g' : Graph} {ls : List LoopFrame}

theorem Encloses.mono (h : Encloses g ω z ls)
    (hw : ∀ b, g.Inside ω z b → g'.Inside ω' z b) : Encloses g' ω' z ls :=
  ⟨fun b hb => hw b (h.waiting b hb), fun f hf c hc =>
    ⟨hw c (h.goals f hf c hc).1, (h.goals f hf c hc).2⟩⟩

theorem Encloses.tail {f : LoopFrame} (h : Encloses g ω z (f :: ls)) : Encloses g ω z ls :=
  ⟨fun b hb => h.waiting b (by rw [waiting_cons]; exact List.mem_append_right _ hb),
    fun f' hf' => h.goals f' (List.mem_cons_of_mem _ hf')⟩

theorem Heads.grow {e : FunctionEntry} (h : Heads g ω e) (hext : g.Extends g') : Heads g' ω e := by
  obtain ⟨hzone, B, hB, hsig, hparams⟩ := h
  obtain ⟨B', hB', hext⟩ := hext _ B hB
  exact ⟨hzone, B', hB', hext.signature.trans hsig, by rwa [hext.parameters]⟩

theorem State.Zoned.lift {s : State} {t : Builder} (hs : s.Zoned ω z)
    (hext : s.graph.Extends t.graph) (ht : t.graph.Zoned ω s.IsEntry z) :
    ({ s with toBuilder := t } : State).Zoned ω z where
  graph := ht
  entries k e he := (hs.entries k e he).grow hext
  loops := hs.loops.mono fun _ hb => hb.grow hext

end Growth

def Widens (ω : BlockId → Zone) (s : State) (ω' : BlockId → Zone) (s' : State) : Prop :=
  ∀ b z, s.graph.Inside ω z b → s'.graph.Inside ω' z b

def Confines (z : Zone) (X : List BlockId) (s : State) (Y : List BlockId) (s' : State) : Prop :=
  ∀ ⦃ω⦄, s.Zoned ω z → (∀ b ∈ X, s.graph.Inside ω z b) →
    ∃ ω', Widens ω s ω' s' ∧ s'.Zoned ω' z ∧ ∀ c ∈ Y, s'.graph.Inside ω' z c

namespace Confines

variable {z : Zone} {X Y Z : List BlockId} {s s' s'' : State}

theorem refl (X : List BlockId) (s : State) : Confines z X s X s :=
  fun ω hs hX => ⟨ω, fun _ _ h => h, hs, hX⟩

theorem trans (h : Confines z X s Y s') (k : Confines z Y s' Z s'') : Confines z X s Z s'' := by
  intro ω hs hX
  obtain ⟨ω₁, hw, hs', hY⟩ := h hs hX
  obtain ⟨ω₂, hw', hs'', hZ⟩ := k hs' hY
  exact ⟨ω₂, fun b z hb => hw' b z (hw b z hb), hs'', hZ⟩

theorem frame (h : Confines z X s Y s') (Z : List BlockId) :
    Confines z (X ++ Z) s (Y ++ Z) s' := by
  intro ω hs hX
  obtain ⟨ω', hw, hs', hY⟩ := h hs fun b hb => hX b (List.mem_append_left _ hb)
  refine ⟨ω', hw, hs', fun c hc => ?_⟩
  rcases List.mem_append.1 hc with hc | hc
  · exact hY c hc
  · exact hw c z (hX c (List.mem_append_right _ hc))

theorem keep (h : Confines z X s Y s') : Confines z X s (Y ++ X) s' := by
  intro ω hs hX
  exact h.frame X hs (by simpa using hX)

theorem mono {A D : List BlockId} (h : Confines z X s Y s') (hX : ∀ b ∈ X, b ∈ A)
    (hY : ∀ c ∈ D, c ∈ Y) : Confines z A s D s' := by
  intro ω hs hA
  obtain ⟨ω', hw, hs', hD⟩ := h hs fun b hb => hA b (hX b hb)
  exact ⟨ω', hw, hs', fun c hc => hD c (hY c hc)⟩

theorem of_entry (h : (∃ B, s.graph.block? z.entry = some B) → Confines z X s Y s') :
    Confines z X s Y s' :=
  fun _ hs hX => h hs.graph.entry hs hX

theorem of_moves {E : List BlockId} {t : Builder} (hm : Moves E X s.toBuilder Y t)
    (h : ∀ {ω F}, s.graph.Zoned ω F z → (∀ b ∈ X, ω b = z) →
      t.graph.Zoned ω F z ∧ ∀ c ∈ Y, ω c = z) : Confines z X s Y { s with toBuilder := t } := by
  intro ω hs hX
  obtain ⟨ht, hY⟩ := h hs.graph fun b hb => (hX b hb).1
  refine ⟨ω, fun b z hb => hb.grow hm.graph_extends, hs.lift hm.graph_extends ht, fun c hc => ?_⟩
  rcases hm.fresh c hc with hX' | ⟨-, hsome⟩
  · exact (hX c hX').grow hm.graph_extends
  · exact ⟨hY c hc, Option.ne_none_iff_exists'.1 hsome⟩

theorem of_blocks (hsame : ∀ c, s'.graph.block? c = s.graph.block? c)
    (hf : s'.functions = s.functions) (hl : s'.loops = s.loops) : Confines z X s X s' := by
  intro ω hs hX
  have hext : s.graph.Extends s'.graph := fun b B hB => ⟨B, (hsame b).trans hB, .refl B⟩
  refine ⟨ω, fun b z hb => hb.grow hext, ⟨?_, ?_, ?_⟩, fun c hc => (hX c hc).grow hext⟩
  · have hentry : s'.IsEntry = s.IsEntry := by
      unfold State.IsEntry
      rw [hf]
    rw [hentry]
    exact hs.graph.congr hsame
  · rw [hf]
    exact fun k e he => (hs.entries k e he).grow hext
  · rw [hl]
    exact hs.loops.mono fun b hb => hb.grow hext

theorem of_rebuilds (h : Rebuilds [] s [] s') : Confines z X s X s' := by
  obtain ⟨t, ht, rfl⟩ := h
  refine of_blocks (fun c => ?_) rfl rfl
  cases hc : s.graph.block? c with
  | some C => exact ht.keeps c C (by simp) hc
  | none =>
    by_contra hsome
    obtain ⟨x, hx, -⟩ := ht.reach c hc hsome
    simp at hx

end Confines

variable {z : Zone} {b c d : BlockId} {s s' : State} {r : Register} {t : Builder} {preds : List BlockId}

theorem confines_writes (h : Writes b s.toBuilder b t) :
    Confines z [b] s [b] { s with toBuilder := t } :=
  .of_moves h.toMoves fun hs hb => ⟨h.zoned hs (hb b (by simp)), hb⟩

theorem confines_converge {context : BlockId} (h : Runs (converge context preds) s.toBuilder c t) :
    Confines z (context :: preds) s [c] { s with toBuilder := t } := by
  refine Confines.mono (.of_moves ((moves_converge h).frame [context]) (X := preds ++ [context])
    (Y := [c, context]) fun hs hX => ?_) (by simp [or_comm]) (by simp)
  have hcontext := hX context (by simp)
  obtain ⟨ht, hc⟩ := zoned_converge hs hcontext (fun b hb => hX b (by simp [hb])) h
  exact ⟨ht, by simp [hc.1, hcontext]⟩

theorem confines_branch (hlast : Runs (lastRegister b) s.toBuilder r s.toBuilder)
    (h : Runs (branch b r) s.toBuilder (c, d) t) :
    Confines z [b] s [c, d] { s with toBuilder := t } := by
  obtain ⟨B, hB, hr, -⟩ := runs_lastRegister.1 hlast
  refine .of_moves (moves_branch h hB (Block.contains_of_lastRegister? hr)) fun hs hX => ?_
  obtain ⟨ht, hc, hd⟩ := zoned_branch hs (hX b (by simp)) h
  exact ⟨ht, by simp [hc.1, hd.1]⟩

theorem confines_convergeBranch {context : BlockId}
    (hlast : Runs (lastRegister b) s.toBuilder r s.toBuilder)
    (h : Runs (convergeBranch context preds b r) s.toBuilder (c, d) t) :
    Confines z (context :: b :: preds) s [c, d] { s with toBuilder := t } := by
  obtain ⟨B, hB, hr, -⟩ := runs_lastRegister.1 hlast
  have hmove := moves_convergeBranch h hB (Block.contains_of_lastRegister? hr)
  refine Confines.mono (.of_moves (hmove.frame [context]) (X := b :: preds ++ [context])
    (Y := [c, d, context]) fun hs hX => ?_) (by simp; grind) (by simp +contextual)
  have hcontext := hX context (by simp)
  obtain ⟨ht, hc, hd⟩ := zoned_convergeBranch hs hcontext (hX b (by simp))
    (fun b hb => hX b (by simp [hb])) h
  exact ⟨ht, by simp [hc.1, hd.1, hcontext]⟩

theorem storing_blockRef? (object : Register) (n : Nat) (rs : List Register) :
    ∀ i ∈ storing object n rs, i.operation.blockRef? = none := by
  induction rs generalizing n with
  | nil => simp [storing]
  | cons r rs ih =>
    rw [storing, List.forall_mem_cons]
    exact ⟨rfl, ih (n + 1)⟩

theorem loading_blockRef? (object : Register) (n : Nat) (ts : List ValueType) :
    ∀ i ∈ loading object n ts, i.operation.blockRef? = none := by
  induction ts generalizing n with
  | nil => simp [loading]
  | cons t ts ih =>
    rw [loading, List.forall_mem_cons]
    exact ⟨rfl, ih (n + 1)⟩

section Call

variable {k : Call} {p : Packing} {layout : LayoutId} {resume : BlockId}

theorem Call.Packs.mem_referenced_suspended (hp : k.Packs layout resume p)
    (hc : c ∈ (k.suspended p).referenced) : c ∈ k.caller.referenced ∨ c = resume := by
  have hcode : ∀ i ∈ p.code, ∀ c, i.operation.blockRef? = some c → c = resume := by
    have hcapture (n : Nat) (ps : List ValueType) (l : LayoutId) (rs : List Register) :
        ∀ i ∈ capturing n resume ps l rs, ∀ c, i.operation.blockRef? = some c → c = resume := by
      intro i hi c hc
      rcases List.mem_append.1 hi with hi | hi
      · simp only [List.mem_cons, List.not_mem_nil, or_false] at hi
        rcases hi with rfl | rfl | rfl <;> simp_all [Operation.blockRef?]
      · simp [storing_blockRef? _ _ _ i hi] at hc
    cases hp with
    | plain => exact hcapture _ _ _ _
    | captured =>
      intro i hi
      rcases List.mem_append.1 hi with hi | hi
      · exact hcapture _ _ _ _ i hi
      · obtain rfl := List.mem_singleton.1 hi
        simp [Operation.blockRef?]
  simp only [Call.suspended, Block.referenced, Block.close, Block.pushAll, List.filterMap_append,
    List.mem_append, List.mem_filterMap] at hc ⊢
  refine hc.imp_right ?_
  rintro ⟨i, hi, hc⟩
  exact hcode i hi c hc

theorem Call.Packs.referenced_resumed (hp : k.Packs layout resume p) :
    (k.resumed resume p).referenced = [] := by
  have hyield : ∀ i ∈ k.yielding p, i.operation.blockRef? = none := by
    unfold Call.yielding
    split <;> simp [Operation.blockRef?]
  have hload : ∀ i ∈ p.unpacking, i.operation.blockRef? = none := by
    cases hp with
    | plain => simp [Call.plain]
    | captured =>
      simp only [Call.captured, resuming, List.forall_mem_cons]
      exact ⟨rfl, loading_blockRef? _ _ _⟩
  simp only [Call.resumed, Block.referenced, Block.withLocals, Block.pushAll, Call.bare,
    List.nil_append, List.filterMap_eq_nil_iff, List.mem_append]
  exact fun i hi => hi.elim (hload i) (hyield i)

theorem Call.Packs.hasSlot (hp : k.Packs layout resume p) {t : Option ValueType}
    (h : k.caller.HasSlot t) : (k.resumed resume p).HasSlot t := by
  refine forall₂_join hp.retypes.slot h fun r r' t ⟨t', ht', hr'⟩ ht => ?_
  rwa [Option.some.inj (ht.symm.trans ht')]

theorem Call.Suspends.zoned {s s' : Builder} {ω : BlockId → Zone} {F : BlockId → Prop}
    (h : k.Suspends b p s s') (hp : k.Packs layout s.graph.nextId p)
    (hB : s.graph.block? b = some k.caller) (hb : ω b = z) (hs : s.graph.Zoned ω F z) :
    s.graph.Extends s'.graph ∧ s'.graph.Zoned ω F z ∧ z.Inner ω s.graph.nextId := by
  have hsuspend : k.caller.Extends (k.suspended p) :=
    (Block.Extends.pushAll h.open_ p.code).trans
      (.close ((k.caller.pushAll_isTerminated p.code).trans h.open_) _)
  have hnew : z.Inner ω s.graph.nextId := hs.inner s.graph.block?_nextId
  have hslot := hs.slots b _ hB
  rw [hb] at hslot
  have hext : s.graph.Extends s'.graph := by
    intro d D hD
    by_cases hdb : d = b
    · subst hdb
      obtain rfl := Option.some.inj (hB.symm.trans hD)
      exact ⟨_, h.caller, hsuspend⟩
    · refine ⟨D, (h.others d hdb ?_).trans hD, .refl D⟩
      rintro rfl
      simp [Graph.block?_nextId] at hD
  refine ⟨hext, hs.grow hext fun d D hD => ?_, hnew⟩
  by_cases hdb : d = b
  · subst hdb
    obtain rfl := Option.some.inj (h.caller.symm.trans hD)
    refine .inr ⟨hb, hslot.mono hsuspend rfl, fun c hc => ?_⟩
    rcases hp.mem_referenced_suspended hc with hc | rfl
    · exact .inl (mem_references_of_block? hB hc)
    · exact .inr ⟨⟨_, h.resumed⟩, .inr hnew⟩
  · by_cases hdn : d = s.graph.nextId
    · subst hdn
      obtain rfl := Option.some.inj (h.resumed.symm.trans hD)
      exact .inr ⟨hnew.1, hp.hasSlot hslot, by simp [hp.referenced_resumed]⟩
    · exact .inl ((h.others d hdb hdn).symm.trans hD)

end Call

theorem confines_lowerCall {n : Nat} {type : SourceType} (h : Runs (lowerCall b n type) s c s') :
    Confines z [b] s [c] s' := by
  obtain ⟨k, p, t, hbegins, rfl, hp, hsus, hs'⟩ := runs_lowerCall h
  obtain ⟨B, rest, hB, -, hcaller⟩ := hbegins.block
  have hpop := confines_writes (z := z) (.relocate hB (l := k.caller.locals) (by rw [hcaller]; rfl)
    (by rw [hcaller]; exact List.Subset.refl _))
  have hsettle := settles_lowerType _ hbegins.result
  have hB' : t.graph.block? b = some k.caller := by
    refine hsettle.keeps (by simp) ?_
    rw [updateBlock_self hB, hcaller]
    rfl
  refine (hpop.trans (.of_rebuilds hsettle)).trans ?_
  intro ω ht hX
  obtain ⟨hext, hg, hc⟩ := hsus.zoned hp hB' (hX b (by simp)).1 ht.graph
  rw [hs']
  refine ⟨ω, fun b z hb => hb.grow hext, ht.lift hext hg, ?_⟩
  simpa using ⟨hc.1, _, hsus.resumed⟩

instance : Chains fun b s c s' => Confines z [b] s [c] s' where
  refl b s := .refl [b] s
  trans h k := h.trans k

instance : Lowers fun b s c s' => Confines z [b] s [c] s' where
  stays hx s a s' h := by
    obtain ⟨t, ht, rfl⟩ := Runs.lift_build_iff.1 h
    exact confines_writes (hx ht)
  settles hx s a s' h := .of_rebuilds (hx h)
  refer {b s k e r t} he h := by
    intro ω hs hX
    obtain ⟨hb, B, hB⟩ := hX b (by simp)
    have hext := (moves_emitRef h).graph_extends
    refine ⟨ω, fun b z hb => hb.grow hext, hs.lift hext ?_, fun c hc => (hX c hc).grow hext⟩
    exact zoned_emitRef hs.graph hb (.inl ⟨k, e, he, rfl⟩) h
  call h := confines_lowerCall h
  choose {b onTrue onFalse first second merged r s s₁ s₂ t u} hlast hbranch hfirst hsecond hmerge := by
    have hsplit := (confines_branch (z := z) hlast hbranch).keep.trans (hfirst.frame [onFalse, b])
    have harm := (hsecond.frame [first, b]).mono (A := [first, onFalse, b])
      (D := [b, first, second]) (by simp) (by simp)
    exact (hsplit.trans harm).trans (confines_converge hmerge)

theorem confines_lowerExpr {e : Expr} (h : Runs (lowerExpr b e) s c s') :
    Confines z [b] s [c] s' :=
  traces_lowerExpr (R := fun b s c s' => Confines z [b] s [c] s') b e h

end BlockGraph.Lowering

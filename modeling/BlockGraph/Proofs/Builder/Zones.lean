import BlockGraph.Proofs.Builder.Advances

namespace BlockGraph

namespace Block

def HasSlot (B : Block) (t : Option ValueType) : Prop :=
  B.HasTypes B.locals.returnSlot.toList t.toList

variable {B B' : Block} {t t' : Option ValueType}

theorem HasSlot.unique (h : B.HasSlot t) (h' : B.HasTypes B.locals.returnSlot.toList t'.toList) :
    t' = t := by
  unfold HasSlot HasTypes at *
  cases hslot : B.locals.returnSlot with
  | none => cases t <;> cases t' <;> simp_all
  | some r => cases t <;> cases t' <;> simp_all

theorem HasSlot.mono (h : B.HasSlot t) (hext : B.Extends B')
    (hslot : B'.locals.returnSlot = B.locals.returnSlot) : B'.HasSlot t := by
  unfold HasSlot
  rw [hslot]
  exact HasTypes.mono h fun _ _ => hext.typeOf?

end Block

/-- The blocks that can be reached from an entry without passing another one. -/
structure Zone where
  entry : BlockId
  slot : Option ValueType

def Zone.Inner (z : Zone) (ω : BlockId → Zone) (c : BlockId) : Prop := ω c = z ∧ c ≠ z.entry

namespace Graph

variable {b c : BlockId}

/-- Every block has a zone, and code is added to the zone `z`. The blocks in `F` may be referred to
from all zones. -/
structure Zoned (ω : BlockId → Zone) (F : BlockId → Prop) (z : Zone) (g : Graph) : Prop where
  slots : ∀ b B, g.block? b = some B → B.HasSlot (ω b).slot
  refs : ∀ b c, c ∈ g.references b → (∃ C, g.block? c = some C) ∧ (F c ∨ (ω b).Inner ω c)
  fresh : ∀ c, g.block? c = none → ω c = z
  entry : ∃ B, g.block? z.entry = some B

def Inside (g : Graph) (ω : BlockId → Zone) (z : Zone) (b : BlockId) : Prop :=
  ω b = z ∧ ∃ B, g.block? b = some B

variable {ω : BlockId → Zone} {F : BlockId → Prop} {z : Zone} {g g' : Graph}

theorem Inside.grow (h : g.Inside ω z b) (hext : g.Extends g') : g'.Inside ω z b := by
  obtain ⟨hb, B, hB⟩ := h
  obtain ⟨B', hB', -⟩ := hext b B hB
  exact ⟨hb, B', hB'⟩

theorem Zoned.grow (h : g.Zoned ω F z) (hext : g.Extends g')
    (hg : ∀ b B', g'.block? b = some B' → g.block? b = some B' ∨ ω b = z ∧ B'.HasSlot z.slot ∧
      ∀ c ∈ B'.referenced, c ∈ g.references b ∨
        (∃ C, g'.block? c = some C) ∧ (F c ∨ z.Inner ω c)) : g'.Zoned ω F z where
  slots b B' hB' := by
    rcases hg b B' hB' with hB | ⟨rfl, hslot, -⟩
    · exact h.slots b B' hB
    · exact hslot
  refs b c hc := by
    have hold (hc : c ∈ g.references b) :
        (∃ C, g'.block? c = some C) ∧ (F c ∨ (ω b).Inner ω c) := by
      obtain ⟨⟨C, hC⟩, hin⟩ := h.refs b c hc
      obtain ⟨C', hC', -⟩ := hext c C hC
      exact ⟨⟨C', hC'⟩, hin⟩
    obtain ⟨B', hB', hc⟩ := mem_references.1 hc
    rcases hg b B' hB' with hB | ⟨rfl, -, hrefs⟩
    · exact hold (mem_references.2 ⟨B', hB, hc⟩)
    · exact (hrefs c hc).elim hold id
  fresh c hc := by
    apply h.fresh c
    by_contra hsome
    obtain ⟨C, hC⟩ := Option.ne_none_iff_exists'.1 hsome
    obtain ⟨C', hC', -⟩ := hext c C hC
    simp [hc] at hC'
  entry := by
    obtain ⟨B, hB⟩ := h.entry
    obtain ⟨B', hB', -⟩ := hext _ B hB
    exact ⟨B', hB'⟩

theorem Zoned.inner (h : g.Zoned ω F z) (hc : g.block? c = none) : z.Inner ω c := by
  refine ⟨h.fresh c hc, ?_⟩
  rintro rfl
  obtain ⟨B, hB⟩ := h.entry
  simp [hc] at hB

theorem Zoned.congr (h : g.Zoned ω F z) (hg : ∀ c, g'.block? c = g.block? c) : g'.Zoned ω F z :=
  h.grow (fun b B hB => ⟨B, (hg b).trans hB, .refl B⟩) fun b _ hB => .inl ((hg b).symm.trans hB)

theorem Zoned.begin {F' : BlockId → Prop} {e : BlockId} {B : Block} {t : Option ValueType}
    (h : g.Zoned ω F z) (he : g.block? e = none) (hother : ∀ c, c ≠ e → g'.block? c = g.block? c)
    (hB : g'.block? e = some B) (hslot : B.HasSlot t) (hrefs : B.referenced = [])
    (hF : ∀ c, F c → F' c) : g'.Zoned (Function.update ω e ⟨e, t⟩) F' z := by
  have hold {c : BlockId} {C : Block} (hC : g.block? c = some C) :
      c ≠ e ∧ g'.block? c = some C := by
    have hc : c ≠ e := by
      rintro rfl
      simp [he] at hC
    exact ⟨hc, (hother c hc).trans hC⟩
  refine ⟨fun b C hC => ?_, fun b c hc => ?_, fun c hc => ?_, ?_⟩
  · by_cases hb : b = e
    · subst hb
      obtain rfl := Option.some.inj (hB.symm.trans hC)
      simpa using hslot
    · rw [Function.update_of_ne hb]
      exact h.slots b C ((hother b hb).symm.trans hC)
  · obtain ⟨C, hC, hc⟩ := mem_references.1 hc
    by_cases hb : b = e
    · subst hb
      obtain rfl := Option.some.inj (hB.symm.trans hC)
      simp [hrefs] at hc
    · obtain ⟨⟨D, hD⟩, hin⟩ := h.refs b c (mem_references.2 ⟨C, (hother b hb).symm.trans hC, hc⟩)
      obtain ⟨hce, hD'⟩ := hold hD
      refine ⟨⟨D, hD'⟩, hin.imp (hF c) fun hin => ?_⟩
      rw [Function.update_of_ne hb]
      exact ⟨(Function.update_of_ne hce ..).trans hin.1, hin.2⟩
  · have hce : c ≠ e := by
      rintro rfl
      simp [hB] at hc
    rw [Function.update_of_ne hce]
    exact h.fresh c ((hother c hce).symm.trans hc)
  · obtain ⟨C, hC⟩ := h.entry
    exact ⟨C, (hold hC).2⟩

def refill (g : Graph) (ω : BlockId → Zone) (z : Zone) (c : BlockId) : Zone :=
  if (g.block? c).isSome then ω c else z

theorem refill_of_some {C : Block} (hC : g.block? c = some C) : g.refill ω z c = ω c := by
  simp [refill, hC]

theorem Inside.refill (h : g.Inside ω z b) (z' : Zone) : g.Inside (g.refill ω z') z b := by
  obtain ⟨hb, B, hB⟩ := h
  exact ⟨(refill_of_some hB).trans hb, B, hB⟩

theorem Zoned.refill {z' : Zone} (h : g.Zoned ω F z) (hz : ∃ B, g.block? z'.entry = some B) :
    g.Zoned (g.refill ω z') F z' where
  slots b B hB := by
    rw [refill_of_some hB]
    exact h.slots b B hB
  refs b c hc := by
    obtain ⟨B, hB, -⟩ := mem_references.1 hc
    obtain ⟨⟨C, hC⟩, hin⟩ := h.refs b c hc
    refine ⟨⟨C, hC⟩, hin.imp_right fun hin => ?_⟩
    rw [refill_of_some hB]
    exact ⟨(refill_of_some hC).trans hin.1, hin.2⟩
  fresh c hc := by simp [Graph.refill, hc]
  entry := hz

end Graph

namespace Builder

variable {ω : BlockId → Zone} {F : BlockId → Prop} {z : Zone} {s s' : Builder} {b c : BlockId}
  {preds : List BlockId} {r : Register} {u : Unit} {d context : BlockId}

theorem zoned_update {B : Block} {f : Block → Block} (h : s.graph.Zoned ω F z) (hb : ω b = z)
    (hB : s.graph.block? b = some B) (hext : B.Extends (f B))
    (hslot : (f B).locals.returnSlot = B.locals.returnSlot)
    (hrefs : ∀ c ∈ (f B).referenced, c ∈ B.referenced ∨
      (∃ C, s.graph.block? c = some C) ∧ (F c ∨ z.Inner ω c)) :
    (s.updateBlock b f).graph.Zoned ω F z := by
  have hgrow : s.graph.Extends (s.updateBlock b f).graph := .modifyBlock fun B' hB' => by
    obtain rfl := Option.some.inj (hB.symm.trans hB')
    exact hext
  refine h.grow hgrow fun d D hD => ?_
  by_cases hd : d = b
  · subst hd
    obtain rfl : f B = D := by simpa [hB] using hD
    have hold := h.slots d B hB
    rw [hb] at hold
    refine .inr ⟨hb, hold.mono hext hslot, fun c hc => ?_⟩
    rcases hrefs c hc with hc | ⟨⟨C, hC⟩, hin⟩
    · exact .inl (mem_references_of_block? hB hc)
    · obtain ⟨C', hC', -⟩ := hgrow c C hC
      exact .inr ⟨⟨C', hC'⟩, hin⟩
  · exact .inl (by simpa [hd] using hD)

theorem Writes.other (h : Writes b s c s') (hd : d ≠ b) : s'.graph.block? d = s.graph.block? d := by
  cases hD : s.graph.block? d with
  | some D => exact h.keeps d D (by simpa using hd) hD
  | none =>
    by_contra hsome
    obtain ⟨D', hD'⟩ := Option.ne_none_iff_exists'.1 hsome
    obtain ⟨D, hD'', -⟩ := h.plain d D' hD'
    simp [hD] at hD''

theorem Writes.zoned (hs : s.graph.Zoned ω F z) (hb : ω b = z) (h : Writes b s c s') :
    s'.graph.Zoned ω F z := by
  refine hs.grow h.graph_extends fun d D' hD' => ?_
  by_cases hd : d = b
  · subst hd
    obtain ⟨D, hD, hrefs, hslot, -⟩ := h.plain d D' hD'
    obtain ⟨D'', hD'', hext⟩ := h.graph_extends d D hD
    obtain rfl := Option.some.inj (hD'.symm.trans hD'')
    have hold := hs.slots d D hD
    rw [hb] at hold
    refine .inr ⟨hb, hold.mono hext hslot, fun c hc => .inl ?_⟩
    exact mem_references_of_block? hD (hrefs ▸ hc)
  · exact .inl ((h.other hd).symm.trans hD')

theorem zoned_refer {B C : Block} (hs : s.graph.Zoned ω F z) (hb : ω b = z)
    (hB : s.graph.block? b = some B) (hC : s.graph.block? c = some C)
    (hopen : B.isTerminated = false) (hc : F c ∨ z.Inner ω c) (ts : List ValueType) :
    (s.updateBlock b (·.refer c ts)).graph.Zoned ω F z := by
  refine zoned_update hs hb hB (.push hopen _) rfl fun d hd => ?_
  have hd : d ∈ B.referenced ∨ d = c := by
    simpa [Block.referenced, Block.refer, Operation.blockRef?] using hd
  rcases hd with hd | rfl
  · exact .inl hd
  · exact .inr ⟨⟨C, hC⟩, hc⟩

theorem zoned_emitRef (hs : s.graph.Zoned ω F z) (hb : ω b = z) (hc : F c ∨ z.Inner ω c)
    (h : Runs (emitRef b c) s r s') : s'.graph.Zoned ω F z := by
  obtain ⟨C, B, hC, hB, hopen, -, rfl⟩ := runs_emitRef.1 h
  exact zoned_refer hs hb hB hC hopen hc _

theorem zoned_edge {e : Edge} (hs : s.graph.Zoned ω F z) (hb : ω b = z) (hc : z.Inner ω c)
    (h : Runs (edge b c) s e s') : s'.graph.Zoned ω F z := by
  obtain ⟨B, C, args, hB, hC, hopen, -, -, -, rfl⟩ := runs_edge.1 h
  exact zoned_refer hs hb hB hC hopen (.inr hc) _

theorem zoned_terminate {t : Terminator} (hs : s.graph.Zoned ω F z) (hb : ω b = z)
    (h : Runs (terminate b t) s u s') : s'.graph.Zoned ω F z := by
  obtain ⟨B, hB, hopen, rfl⟩ := runs_terminate.1 h
  exact zoned_update hs hb hB (.close hopen t) rfl fun _ hc => .inl hc

theorem zoned_goto {e : Edge} (hs : s.graph.Zoned ω F z) (hb : ω b = z)
    (h : Runs (goto b e) s u s') : s'.graph.Zoned ω F z := by
  obtain ⟨B, hB, hopen, -, rfl⟩ := runs_goto.1 h
  exact zoned_terminate (u := u) hs hb (runs_terminate.2 ⟨B, hB, hopen, rfl⟩)

theorem zoned_jump (hs : s.graph.Zoned ω F z) (hb : ω b = z) (hc : z.Inner ω c)
    (h : Runs (jump b c) s u s') : s'.graph.Zoned ω F z := by
  obtain ⟨e, t, hedge, hend⟩ := Runs.bind_iff.1 h
  exact zoned_terminate (zoned_edge hs hb hc hedge) hb hend

theorem zoned_jumps {v : PUnit} (hs : s.graph.Zoned ω F z) (hb : ∀ b ∈ preds, ω b = z)
    (hc : z.Inner ω c) (h : Runs (preds.forM (jump · c)) s v s') : s'.graph.Zoned ω F z := by
  induction preds generalizing s with
  | nil =>
    obtain rfl := Runs.forM_nil.1 h
    exact hs
  | cons b bs ih =>
    obtain ⟨t, hjump, hrest⟩ := Runs.forM_cons.1 h
    exact ih (zoned_jump hs (hb b (by simp)) hc hjump) (fun d hd => hb d (by simp [hd])) hrest

theorem zoned_branchTo (hs : s.graph.Zoned ω F z) (hb : ω b = z) (hc : z.Inner ω c)
    (hd : z.Inner ω d) (h : Runs (branchTo b r c d) s u s') : s'.graph.Zoned ω F z := by
  simp only [branchTo, Runs.bind_iff] at h
  obtain ⟨e, t, hedge, e', t', hedge', hend⟩ := h
  exact zoned_terminate (zoned_edge (zoned_edge hs hb hc hedge) hb hd hedge') hb hend

theorem finish_extends (h : Runs (finish b) s u s') : s.graph.Extends s'.graph := by
  obtain ⟨B, hB, hopen, rfl⟩ := runs_finish.1 h
  refine .modifyBlock fun B' hB' => ?_
  obtain rfl := Option.some.inj (hB.symm.trans hB')
  exact ⟨rfl, rfl, rfl, List.prefix_rfl, by simp [hopen]⟩

theorem zoned_finish (hs : s.graph.Zoned ω F z) (hb : ω b = z) (h : Runs (finish b) s u s') :
    s'.graph.Zoned ω F z := by
  obtain ⟨B, hB, hopen, rfl⟩ := runs_finish.1 h
  refine zoned_update hs hb hB ⟨rfl, rfl, rfl, List.prefix_rfl, ?_⟩ rfl fun _ hc => .inl hc
  simp [hopen]

theorem zoned_newChild (hs : s.graph.Zoned ω F z) (hb : ω context = z)
    (h : Runs (newChild context preds) s c s') : s'.graph.Zoned ω F z ∧ z.Inner ω c := by
  have hext := (moves_newChild h).graph_extends
  obtain ⟨i, hi, rfl, rfl⟩ := runs_newChild.1 h
  have hnew : z.Inner ω s.graph.nextId := hs.inner s.graph.block?_nextId
  refine ⟨hs.grow hext fun d D hD => ?_, hnew⟩
  rw [addChild_block?] at hD
  split at hD
  case isTrue hd =>
    subst hd
    obtain rfl := Option.some.inj hD
    obtain ⟨C, hC, -, hslot⟩ := hi.context
    have hcontext := hs.slots context C hC
    rw [hb] at hcontext
    have hsame : (i.block s.graph.nextId).HasSlot z.slot := by
      rw [← hcontext.unique hslot]
      exact i.block_slot _
    exact .inr ⟨hnew.1, hsame, by simp [Inflow.block, Block.referenced]⟩
  case isFalse => exact .inl hD

theorem zoned_converge (hs : s.graph.Zoned ω F z) (hb : ω context = z)
    (hpreds : ∀ b ∈ preds, ω b = z) (h : Runs (converge context preds) s c s') :
    s'.graph.Zoned ω F z ∧ z.Inner ω c := by
  simp only [converge, Runs.bind_iff, Runs.pure_iff] at h
  obtain ⟨_, t, hchild, _, _, hjumps, rfl, rfl⟩ := h
  obtain ⟨ht, hc⟩ := zoned_newChild hs hb hchild
  exact ⟨zoned_jumps ht hpreds hc hjumps, hc⟩

theorem zoned_branch (hs : s.graph.Zoned ω F z) (hb : ω b = z) (h : Runs (branch b r) s (c, d) s') :
    s'.graph.Zoned ω F z ∧ z.Inner ω c ∧ z.Inner ω d := by
  simp only [branch, Runs.bind_iff, Runs.pure_iff, Prod.mk.injEq] at h
  obtain ⟨_, t, hc, _, t', hd, _, _, hbranch, ⟨rfl, rfl⟩, rfl⟩ := h
  obtain ⟨ht, hc⟩ := zoned_newChild hs hb hc
  obtain ⟨ht', hd⟩ := zoned_newChild ht hb hd
  exact ⟨zoned_branchTo ht' hb hc hd hbranch, hc, hd⟩

theorem zoned_convergeBranch (hs : s.graph.Zoned ω F z) (hcontext : ω context = z) (hb : ω b = z)
    (hpreds : ∀ b ∈ preds, ω b = z) (h : Runs (convergeBranch context preds b r) s (c, d) s') :
    s'.graph.Zoned ω F z ∧ z.Inner ω c ∧ z.Inner ω d := by
  simp only [convergeBranch, Runs.bind_iff, Runs.pure_iff, Prod.mk.injEq] at h
  obtain ⟨_, t, hc, _, t', hd, _, t'', hjumps, _, _, hbranch, ⟨rfl, rfl⟩, rfl⟩ := h
  obtain ⟨ht, hc⟩ := zoned_newChild hs hcontext hc
  obtain ⟨ht', hd⟩ := zoned_newChild ht hcontext hd
  exact ⟨zoned_branchTo (zoned_jumps ht' hpreds hd hjumps) hb hc hd hbranch, hc, hd⟩

end Builder

end BlockGraph

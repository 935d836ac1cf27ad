import BlockGraph.Proofs.Builder.Zones

namespace BlockGraph

namespace Graph

def Slotted (g : Graph) : Prop := ∀ b B, g.block? b = some B → ∃ t, B.HasSlot t

structure Maintains (g g' : Graph) : Prop where
  slots : g.Slotted → g'.Slotted
  names : ∀ b B, g.block? b = some B →
    ∃ B', g'.block? b = some B' ∧ B.locals.symbols.keys ⊆ B'.locals.symbols.keys

namespace Maintains

variable {g g' g'' : Graph}

theorem of_block? (h : ∀ b, g'.block? b = g.block? b) : g.Maintains g' where
  slots hs b B hB := hs b B ((h b).symm.trans hB)
  names b B hB := ⟨B, (h b).trans hB, List.Subset.refl _⟩

theorem refl (g : Graph) : g.Maintains g := of_block? fun _ => rfl

theorem trans (h : g.Maintains g') (k : g'.Maintains g'') : g.Maintains g'' where
  slots hs := k.slots (h.slots hs)
  names b B hB := by
    obtain ⟨B', hB', hnames⟩ := h.names b B hB
    obtain ⟨B'', hB'', hnames'⟩ := k.names b B' hB'
    exact ⟨B'', hB'', List.Subset.trans hnames hnames'⟩

end Maintains

end Graph

namespace Builder

variable {s s' : Builder} {b c context : BlockId} {preds : List BlockId} {r : Register} {u : Unit}

theorem maintains_update {B : Block} {f : Block → Block} (hB : s.graph.block? b = some B)
    (hext : B.Extends (f B)) (hlocals : (f B).locals = B.locals) :
    s.graph.Maintains (s.updateBlock b f).graph := by
  refine ⟨fun hs d D hD => ?_, fun d D hD => ?_⟩
  all_goals by_cases hd : d = b
  · subst hd
    obtain rfl : f B = D := by simpa [hB] using hD
    obtain ⟨t, ht⟩ := hs d B hB
    exact ⟨t, ht.mono hext (by rw [hlocals])⟩
  · exact hs d D (by simpa [hd] using hD)
  · subst hd
    obtain rfl := Option.some.inj (hB.symm.trans hD)
    exact ⟨f B, by simp [hB], by rw [hlocals]; exact List.Subset.refl _⟩
  · exact ⟨D, by simpa [hd] using hD, List.Subset.refl _⟩

theorem Writes.maintains (h : Writes b s c s') : s.graph.Maintains s'.graph := by
  refine ⟨fun hs d D' hD' => ?_, fun d D hD => ?_⟩
  · obtain ⟨D, hD, -, hslot, -⟩ := h.plain d D' hD'
    obtain ⟨D'', hD'', hext⟩ := h.graph_extends d D hD
    obtain rfl := Option.some.inj (hD'.symm.trans hD'')
    obtain ⟨t, ht⟩ := hs d D hD
    exact ⟨t, ht.mono hext hslot⟩
  · obtain ⟨D', hD', -⟩ := h.graph_extends d D hD
    obtain ⟨D₀, hD₀, -, -, hnames⟩ := h.plain d D' hD'
    obtain rfl := Option.some.inj (hD.symm.trans hD₀)
    exact ⟨D', hD', hnames⟩

theorem maintains_emitRef (h : Runs (emitRef b c) s r s') : s.graph.Maintains s'.graph := by
  obtain ⟨C, B, -, hB, hopen, -, rfl⟩ := runs_emitRef.1 h
  exact maintains_update hB (.push hopen _) rfl

theorem maintains_goto {e : Edge} (h : Runs (goto b e) s u s') : s.graph.Maintains s'.graph := by
  obtain ⟨B, hB, hopen, -, rfl⟩ := runs_goto.1 h
  exact maintains_update hB (.close hopen _) rfl

theorem maintains_finish (h : Runs (finish b) s u s') : s.graph.Maintains s'.graph := by
  obtain ⟨B, hB, hopen, rfl⟩ := runs_finish.1 h
  exact maintains_update hB ⟨rfl, rfl, rfl, List.prefix_rfl, by simp [hopen]⟩ rfl

theorem maintains_jump (h : Runs (jump b c) s u s') : s.graph.Maintains s'.graph := by
  obtain ⟨B, C, args, hB, -, hopen, -, -, rfl⟩ := runs_jump.1 h
  have hrefer : B.Extends (B.refer c C.parameterTypes) := .push hopen _
  exact maintains_update hB (hrefer.trans (.close (b := B.refer c _) hopen _)) rfl

theorem maintains_jumps {v : PUnit} (h : Runs (preds.forM (jump · c)) s v s') :
    s.graph.Maintains s'.graph := by
  induction preds generalizing s with
  | nil =>
    obtain rfl := Runs.forM_nil.1 h
    exact .refl _
  | cons b bs ih =>
    obtain ⟨t, hjump, hrest⟩ := Runs.forM_cons.1 h
    exact (maintains_jump hjump).trans (ih hrest)

theorem maintains_branchTo {d : BlockId} (h : Runs (branchTo b r c d) s u s') :
    s.graph.Maintains s'.graph := by
  obtain ⟨B, C, D, ts, fs, hB, -, -, hopen, -, -, -, -, rfl⟩ := runs_branchTo.1 h
  have hrefer : B.Extends (B.refer c C.parameterTypes) := .push hopen _
  have hclose := Block.Extends.close
    (b := (B.refer c C.parameterTypes).refer d D.parameterTypes) hopen
  exact maintains_update hB ((hrefer.trans (.push (b := B.refer c _) hopen _)).trans (hclose _)) rfl

theorem maintains_append {new : Block} {t : Option ValueType} (hnew : new.HasSlot t) :
    s.graph.Maintains (s.appendBlock new).graph := by
  refine ⟨fun hs d D hD => ?_, fun d D hD => ⟨D, ?_, List.Subset.refl _⟩⟩
  · rw [appendBlock_block?] at hD
    split at hD
    · exact ⟨t, Option.some.inj hD ▸ hnew⟩
    · exact hs d D hD
  · have hne : d ≠ s.graph.nextId := by
      rintro rfl
      simp [Graph.block?_nextId] at hD
    rw [appendBlock_block?, if_neg hne, hD]

theorem maintains_addBlock {ps : List Parameter} (h : Runs (addBlock ps) s c s') :
    s.graph.Maintains s'.graph := by
  obtain ⟨-, rfl⟩ := runs_addBlock.1 h
  exact maintains_append (t := none) .nil

theorem maintains_newChild (h : Runs (newChild context preds) s c s') :
    s.graph.Maintains s'.graph := by
  obtain ⟨i, -, -, rfl⟩ := runs_newChild.1 h
  exact maintains_append (i.block_slot _)

theorem maintains_converge (h : Runs (converge context preds) s c s') :
    s.graph.Maintains s'.graph := by
  simp only [converge, Runs.bind_iff, Runs.pure_iff] at h
  obtain ⟨_, t, hchild, _, _, hjumps, -, rfl⟩ := h
  exact (maintains_newChild hchild).trans (maintains_jumps hjumps)

theorem maintains_branch {p : BlockId × BlockId} (h : Runs (branch b r) s p s') :
    s.graph.Maintains s'.graph := by
  simp only [branch, Runs.bind_iff, Runs.pure_iff] at h
  obtain ⟨_, t, hc, _, t', hd, _, _, hbranch, -, rfl⟩ := h
  exact ((maintains_newChild hc).trans (maintains_newChild hd)).trans (maintains_branchTo hbranch)

theorem maintains_convergeBranch {p : BlockId × BlockId}
    (h : Runs (convergeBranch context preds b r) s p s') : s.graph.Maintains s'.graph := by
  simp only [convergeBranch, Runs.bind_iff, Runs.pure_iff] at h
  obtain ⟨_, t, hc, _, t', hd, _, t'', hjumps, _, _, hbranch, -, rfl⟩ := h
  exact (((maintains_newChild hc).trans (maintains_newChild hd)).trans (maintains_jumps hjumps)).trans
    (maintains_branchTo hbranch)

theorem maintains_relocate {t : Builder} {C : Block} {l : Locals} {v : Option ValueType}
    (h : s.graph.Maintains t.graph) (hc : s.graph.block? c = none) (hC : t.graph.block? c = some C)
    (hslot : (C.withLocals l).HasSlot v) :
    s.graph.Maintains (t.updateBlock c (·.withLocals l)).graph := by
  refine ⟨fun hs d D hD => ?_, fun d D hD => ?_⟩
  · by_cases hd : d = c
    · subst hd
      obtain rfl : C.withLocals l = D := by simpa [hC] using hD
      exact ⟨v, hslot⟩
    · exact h.slots hs d D (by simpa [hd] using hD)
  · have hd : d ≠ c := by
      rintro rfl
      simp [hc] at hD
    obtain ⟨D', hD', hnames⟩ := h.names d D hD
    exact ⟨D', by simpa [hd] using hD', hnames⟩

end Builder

end BlockGraph

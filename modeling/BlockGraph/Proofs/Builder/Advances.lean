import BlockGraph.Proofs.Builder.Moves

namespace BlockGraph

class Chains {σ : Type} (R : BlockId → σ → BlockId → σ → Prop) : Prop where
  refl : ∀ b s, R b s b s
  trans : ∀ {b s c t d u}, R b s c t → R c t d u → R b s d u

def Leads {σ α : Type} (R : BlockId → σ → BlockId → σ → Prop) (b : BlockId) (result : α → BlockId)
    (x : StateT σ Logged α) : Prop :=
  ∀ ⦃s a s'⦄, Runs x s a s' → R b s (result a) s'

namespace Leads

variable {σ α β : Type} {R : BlockId → σ → BlockId → σ → Prop} [Chains R] {b : BlockId}
  {p : α → BlockId} {q : β → BlockId}

theorem bind {x : StateT σ Logged α} {f : α → StateT σ Logged β} (hx : Leads R b p x)
    (hf : ∀ a, Leads R (p a) q (f a)) : Leads R b q (x >>= f) := by
  intro s c s' h
  obtain ⟨a, t, ha, hc⟩ := Runs.bind_iff.1 h
  exact Chains.trans (hx ha) (hf a hc)

omit [Chains R] in
theorem look {x : StateT σ Logged α} {f : α → StateT σ Logged β} {P : α → Prop}
    (hx : ∀ s a s', Runs x s a s' → P a ∧ s' = s) (hf : ∀ a, P a → Leads R b q (f a)) :
    Leads R b q (x >>= f) := by
  intro s c s' h
  obtain ⟨a, t, ha, hc⟩ := Runs.bind_iff.1 h
  obtain ⟨hP, rfl⟩ := hx s a t ha
  exact hf a hP hc

theorem pure {a : α} (h : p a = b) : Leads R b p (Pure.pure a : StateT σ Logged α) := by
  intro s c s' hr
  obtain ⟨rfl, rfl⟩ := Runs.pure_iff.1 hr
  exact h ▸ Chains.refl _ _

omit [Chains R] in
theorem throw {e : Fault} : Leads R b p (throw e : StateT σ Logged α) := by
  intro s c s' h
  simp at h

omit [Chains R] in
theorem ite {c : Prop} [Decidable c] {x y : StateT σ Logged α} (hx : Leads R b p x)
    (hy : Leads R b p y) : Leads R b p (if c then x else y) := by
  split
  · exact hx
  · exact hy

end Leads

namespace Builder

variable {s s' : Builder} {preds : List BlockId} {u : Unit} {g : Graph} {B : Block}
  {d context : BlockId}

abbrev Advances (b : BlockId) (s : Builder) (c : BlockId) (s' : Builder) : Prop :=
  Moves [] [b] s [c] s'

structure Writes (b : BlockId) (s : Builder) (c : BlockId) (s' : Builder) : Prop
    extends Moves [] [b] s [c] s' where
  plain : ∀ d D', s'.graph.block? d = some D' → ∃ D, s.graph.block? d = some D ∧
    D'.referenced = D.referenced ∧ D'.locals.returnSlot = D.locals.returnSlot ∧
    D.locals.symbols.keys ⊆ D'.locals.symbols.keys

instance : Chains Writes where
  refl b s := ⟨.refl [b] s, fun _ D hD => ⟨D, hD, rfl, rfl, List.Subset.refl _⟩⟩
  trans h k := by
    refine ⟨h.toMoves.trans k.toMoves, fun d D hD => ?_⟩
    obtain ⟨D₁, hD₁, href₁, hslot₁, hnames₁⟩ := k.plain d D hD
    obtain ⟨D₂, hD₂, href₂, hslot₂, hnames₂⟩ := h.plain d D₁ hD₁
    exact ⟨D₂, hD₂, href₁.trans href₂, hslot₁.trans hslot₂, List.Subset.trans hnames₂ hnames₁⟩

abbrev Stays {α : Type} (b : BlockId) (x : BuildM α) : Prop := Leads Writes b (fun _ => b) x

variable {b c : BlockId} {r : Register}

theorem Moves.within (h : Moves [] [b] s [b] s') {X : List BlockId} (hb : b ∈ X) :
    Moves [] X s X s' := by
  have hp : (b :: X.erase b).Perm X := (List.perm_cons_erase hb).symm
  exact (h.frame (X.erase b)).perm hp hp

theorem stays_of_eq {α : Type} {x : BuildM α} (h : ∀ s a s', Runs x s a s' → s' = s) :
    Stays b x := by
  intro s a s' hr
  obtain rfl := h s a s' hr
  exact Chains.refl _ _

theorem stays_locals : Stays b (locals c) := stays_of_eq (by simp)
theorem stays_typeOf : Stays b (typeOf c r) := stays_of_eq (by simp)
theorem stays_lastRegister : Stays b (lastRegister c) := stays_of_eq (by simp)
theorem stays_peek {n : Nat} : Stays b (peek c n) := stays_of_eq (by simp)

section Primitive

variable {s s' : Builder} {B : Block} {f : Block → Block}

theorem Writes.update (hB : s.graph.block? b = some B) (h : Moves [] [b] s [b] (s.updateBlock b f))
    (href : (f B).referenced = B.referenced)
    (hslot : (f B).locals.returnSlot = B.locals.returnSlot)
    (hnames : B.locals.symbols.keys ⊆ (f B).locals.symbols.keys) : Writes b s b (s.updateBlock b f) := by
  refine ⟨h, fun d D hD => ?_⟩
  rw [updateBlock_block?] at hD
  split at hD
  case isTrue hd =>
    subst hd
    obtain rfl : f B = D := by simpa [hB] using hD
    exact ⟨B, hB, href, hslot, hnames⟩
  case isFalse => exact ⟨D, hD, rfl, rfl, List.Subset.refl _⟩

theorem Writes.push {i : Instruction} (hB : s.graph.block? b = some B)
    (hopen : B.isTerminated = false) (hi : B.Admits s.graph i) (href : i.operation.blockRef? = none) :
    Writes b s b (s.updateBlock b (·.push i)) :=
  .update hB (.push hB hopen hi) (by simp [Block.referenced, href]) rfl (List.Subset.refl _)

theorem Writes.relocate (hB : s.graph.block? b = some B) {l : Locals}
    (hl : l.returnSlot = B.locals.returnSlot) (hnames : B.locals.symbols.keys ⊆ l.symbols.keys) :
    Writes b s b (s.updateBlock b (·.withLocals l)) :=
  .update hB (.relocate hB l) rfl hl hnames

end Primitive

theorem stays_emit {op : Operation} {t : ValueType} (hop : op.isPlain = true) :
    Stays b (emit b op t) := by
  intro s a s' h
  obtain ⟨B, hB, hopen, hops, -, rfl⟩ := runs_emit.1 h
  refine .push hB hopen (.of_isPlain hop hops) ?_
  cases op <;> simp_all [Operation.isPlain, Operation.blockRef?]

theorem moves_emitRef (h : Runs (emitRef b c) s r s') : Advances b s b s' := by
  obtain ⟨C, B, hC, hB, hopen, -, rfl⟩ := runs_emitRef.1 h
  exact .push hB hopen (.of_blockRef hC)

theorem stays_copy : Stays b (copy b r) := by
  intro s a s' h
  obtain ⟨B, t, hB, hopen, ht, -, rfl⟩ := runs_copy.1 h
  refine .push hB hopen ⟨?_, by simp [Operation.blockRef?], fun q hq => ?_⟩ rfl
  · simpa [Operation.operands] using Block.contains_of_typeOf? ht
  · obtain rfl : r = q := by simpa [Operation.copy?] using hq
    exact ht

theorem moves_setLocals {l : Locals} (h : Runs (setLocals b l) s u s') : Advances b s b s' := by
  obtain ⟨⟨B, hB⟩, rfl⟩ := runs_setLocals.1 h
  exact .relocate hB l

theorem stays_define {name : String} {x : Symbol} : Stays b (define b name x) := by
  intro s a s' h
  obtain ⟨B, t, hB, ht, rfl⟩ := runs_define.1 h
  exact .relocate hB rfl (SymbolTable.keys_define ht ▸ List.subset_append_left _ _)

theorem stays_rebind {name : String} : Stays b (rebind b name r) := by
  intro s a s' h
  obtain ⟨B, t, hB, ht, rfl⟩ := runs_rebind.1 h
  exact .relocate hB rfl (SymbolTable.keys_rebind ht ▸ List.Subset.refl _)

theorem stays_push : Stays b (push b r) := by
  intro s a s' h
  obtain ⟨B, hB, -, rfl⟩ := runs_push.1 h
  exact .relocate hB rfl (List.Subset.refl _)

theorem stays_pushLast : Stays b (pushLast b) :=
  stays_lastRegister.bind fun _ => stays_push

theorem stays_popMany {n : Nat} : Stays b (popMany b n) := by
  intro s rs s' h
  rcases runs_popMany.1 h with ⟨-, -, rfl⟩ | ⟨-, B, rest, hB, -, -, rfl⟩
  · exact Chains.refl _ _
  · exact .relocate hB rfl (List.Subset.refl _)

theorem stays_pop : Stays b (pop b) := by
  intro s r s' h
  obtain ⟨B, rest, hB, -, rfl⟩ := runs_pop.1 h
  exact .relocate hB rfl (List.Subset.refl _)

theorem mem_references_isSome (hc : c ∈ g.references b) : ∃ B, g.block? b = some B := by
  obtain ⟨B, hB, -⟩ := Graph.mem_references.1 hc
  exact ⟨B, hB⟩

theorem mem_references_of_block? (hB : g.block? b = some B) (hc : c ∈ B.referenced) :
    c ∈ g.references b :=
  Graph.mem_references.2 ⟨B, hB, hc⟩

theorem references_mono {g' : Graph} (h : g.Extends g') (hc : c ∈ g.references b) :
    c ∈ g'.references b := by
  obtain ⟨B, hB, hc⟩ := Graph.mem_references.1 hc
  obtain ⟨B', hB', hext⟩ := h b B hB
  exact mem_references_of_block? hB' (hext.referenced hc)

theorem references_emitRef (h : Runs (emitRef b c) s r s') : c ∈ s'.graph.references b := by
  obtain ⟨C, B, -, hB, -, -, rfl⟩ := runs_emitRef.1 h
  refine mem_references_of_block? (B := B.refer c C.parameterTypes) (by simp [hB, Block.refer]) ?_
  simp [Block.referenced, Block.refer, Operation.blockRef?]

theorem moves_edge {e : Edge} (h : Runs (edge b c) s e s') :
    Advances b s b s' ∧ c ∈ s'.graph.references b ∧
      ∃ B', s'.graph.block? b = some B' ∧ B'.isTerminated = false ∧ B'.Passes e := by
  obtain ⟨B, C, args, hB, hC, hopen, -, htypes, rfl, rfl⟩ := runs_edge.1 h
  have hB' : (s.updateBlock b (·.refer c C.parameterTypes)).graph.block? b =
      some (B.refer c C.parameterTypes) := by simp [hB]
  refine ⟨.push hB hopen (.of_blockRef hC), mem_references_of_block? hB' ?_, _, hB', hopen,
    C.parameterTypes, Block.typeOf?_push_last _ _, htypes⟩
  simp [Block.referenced, Block.refer, Operation.blockRef?]

theorem moves_jump (h : Runs (jump b c) s u s') :
    Moves [] [b] s [] s' ∧ c ∈ s'.graph.references b ∧ ¬s'.graph.IsOpen b := by
  simp only [jump, Runs.bind_iff, runs_terminate] at h
  obtain ⟨e, t, he, B, hB, hopen, rfl⟩ := h
  obtain ⟨hadv, hc, B', hB', -, hpass⟩ := moves_edge he
  obtain rfl := Option.some.inj (hB.symm.trans hB')
  have hclose : Moves [] [b] t [] _ := .close (t := .goto e) hB hopen
    ⟨by simp [Terminator.condition?], by simpa [Terminator.edges] using hpass⟩
  refine ⟨hadv.trans hclose, references_mono hclose.graph_extends hc, ?_⟩
  rw [isOpen_updateBlock hB]
  simp

theorem moves_goto {e : Edge} (h : Runs (goto b e) s u s') : Moves [] [b] s [] s' := by
  obtain ⟨B, hB, hopen, hpass, rfl⟩ := runs_goto.1 h
  exact .close hB hopen ⟨by simp [Terminator.condition?], by simpa [Terminator.edges] using hpass⟩

theorem moves_branchTo (h : Runs (branchTo b r c d) s u s') (hB : s.graph.block? b = some B)
    (hr : B.contains r = true) :
    Moves [] [b] s [] s' ∧ c ∈ s'.graph.references b ∧ d ∈ s'.graph.references b := by
  simp only [branchTo, Runs.bind_iff, runs_terminate] at h
  obtain ⟨e, t, he, e', t', he', B', hB', hopen, rfl⟩ := h
  obtain ⟨hadv, hc, B₁, hB₁, -, hpass⟩ := moves_edge he
  obtain ⟨hadv', hd, B₂, hB₂, -, hpass'⟩ := moves_edge he'
  obtain rfl := Option.some.inj (hB₂.symm.trans hB')
  obtain ⟨B₁', hB₁', hext⟩ := hadv.graph_extends b B hB
  obtain rfl := Option.some.inj (hB₁.symm.trans hB₁')
  obtain ⟨B₂', hB₂', hext'⟩ := hadv'.graph_extends b B₁ hB₁
  obtain rfl := Option.some.inj (hB₂.symm.trans hB₂')
  have hclose : Moves [] [b] t' [] _ := .close (t := .branch r e e') hB' hopen <| by
    refine ⟨?_, ?_⟩
    · simpa [Terminator.condition?] using (hext.trans hext').contains hr
    · simpa [Terminator.edges] using ⟨hpass.mono fun _ _ => hext'.typeOf?, hpass'⟩
  exact ⟨(hadv.trans hadv').trans hclose,
    references_mono (hadv'.graph_extends.trans hclose.graph_extends) hc,
    references_mono hclose.graph_extends hd⟩

theorem moves_newChild (h : Runs (newChild context preds) s c s') : Moves [c] [] s [c] s' := by
  obtain ⟨i, -, rfl, rfl⟩ := runs_newChild.1 h
  exact (Moves.append rfl ⟨rfl, rfl, rfl⟩).trans ((Moves.report _ _).frame _)

theorem moves_jumps {bs : List BlockId} {u : PUnit} (h : Runs (bs.forM (jump · c)) s u s') :
    Moves [] bs s [] s' ∧ ∀ b ∈ bs, c ∈ s'.graph.references b ∧ ¬s'.graph.IsOpen b := by
  induction bs generalizing s with
  | nil =>
    obtain rfl := Runs.forM_nil.1 h
    exact ⟨.refl _ _, by simp⟩
  | cons b bs ih =>
    obtain ⟨t, hb, hbs⟩ := Runs.forM_cons.1 h
    obtain ⟨hmove, hc, hshut⟩ := moves_jump hb
    obtain ⟨hmoves, hcs⟩ := ih hbs
    refine ⟨(hmove.frame bs).trans hmoves, ?_⟩
    simp only [List.mem_cons, forall_eq_or_imp]
    have hext := hmoves.graph_extends
    exact ⟨⟨references_mono hext hc, hext.not_isOpen (mem_references_isSome hc) hshut⟩, hcs⟩

theorem reaches_of_references (h : c ∈ g.references b) : g.Reaches b c :=
  .single h

theorem moves_converge (h : Runs (converge context preds) s c s') : Moves [] preds s [c] s' := by
  simp only [converge, Runs.bind_iff, Runs.pure_iff] at h
  obtain ⟨_, t, hchild, _, _, hjumps, rfl, rfl⟩ := h
  have hnew := moves_newChild hchild
  obtain ⟨hmoves, hrefs⟩ := moves_jumps hjumps
  obtain ⟨i, hgather, -⟩ := runs_newChild.1 hchild
  obtain ⟨p, P, hp, -⟩ := hgather.first
  have hp' : p ∈ preds := List.mem_of_mem_head? hp
  refine .discharge (e := c) ?_ ⟨p, .inr hp', reaches_of_references (hrefs p hp').1⟩
  have hclose : Moves [] (c :: preds) t [c] s' :=
    (hmoves.frame [c]).perm List.perm_append_comm .rfl
  exact (hnew.frame preds).trans hclose

theorem moves_enter (h : Runs (enter b) s c s') : Advances b s c s' :=
  moves_converge (runs_enter.1 h)

theorem moves_leave (h : Runs (leave context b) s c s') : Advances b s c s' :=
  moves_converge (runs_leave.1 h)

theorem moves_branch (h : Runs (branch b r) s (c, d) s') (hB : s.graph.block? b = some B)
    (hr : B.contains r = true) : Moves [] [b] s [c, d] s' := by
  simp only [branch, Runs.bind_iff, Runs.pure_iff, Prod.mk.injEq] at h
  obtain ⟨_, t, hc, _, t', hd, _, _, hbranch, ⟨rfl, rfl⟩, rfl⟩ := h
  have hnew := moves_newChild hc
  have hnew' := moves_newChild hd
  have hB' : t'.graph.block? b = some B :=
    hnew'.keeps b B (by simp) (hnew.keeps b B (by simp) hB)
  obtain ⟨hmove, hrefc, hrefd⟩ := moves_branchTo hbranch hB' hr
  refine .discharge (e := d) (.discharge (e := c) ?_
    ⟨b, .inr (by simp), reaches_of_references hrefc⟩) ⟨b, .inr (by simp), reaches_of_references hrefd⟩
  have hopen : Moves [c, d] [b] s [b, c, d] t' :=
    ((hnew.frame [b]).trans (hnew'.frame [c, b])).perm .rfl (by grind)
  exact hopen.trans (hmove.frame [c, d])

theorem moves_convergeBranch (h : Runs (convergeBranch context preds b r) s (c, d) s')
    (hB : s.graph.block? b = some B) (hr : B.contains r = true) :
    Moves [] (b :: preds) s [c, d] s' := by
  simp only [convergeBranch, Runs.bind_iff, Runs.pure_iff, Prod.mk.injEq] at h
  obtain ⟨_, t, hc, _, t', hd, _, t'', hjumps, _, _, hbranch, ⟨rfl, rfl⟩, rfl⟩ := h
  have hnew := moves_newChild hc
  have hnew' := moves_newChild hd
  obtain ⟨hmoves, hshut⟩ := moves_jumps hjumps
  -- the jumps have closed their sources, so the block that branches is none of them
  have hb : b ∉ preds := by
    intro hmem
    obtain ⟨B, -, -, -, -, hB, -, -, hopen, -⟩ := runs_branchTo.1 hbranch
    exact (hshut b hmem).2 ⟨B, hB, hopen⟩
  have hB' : t''.graph.block? b = some B :=
    hmoves.keeps b B hb (hnew'.keeps b B (by simp) (hnew.keeps b B (by simp) hB))
  obtain ⟨hmove, hrefc, hrefd⟩ := moves_branchTo hbranch hB' hr
  refine .discharge (e := d) (.discharge (e := c) ?_
    ⟨b, .inr (by simp), reaches_of_references hrefc⟩) ⟨b, .inr (by simp), reaches_of_references hrefd⟩
  have hopen : Moves [c, d] (b :: preds) s (preds ++ [b, c, d]) t' :=
    ((hnew.frame (b :: preds)).trans (hnew'.frame (c :: b :: preds))).perm .rfl (by grind)
  exact (hopen.trans (hmoves.frame [b, c, d])).trans (hmove.frame [c, d])

end Builder

end BlockGraph

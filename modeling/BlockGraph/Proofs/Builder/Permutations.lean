import BlockGraph.Proofs.Builder.Children

namespace BlockGraph

theorem ValueType.ne_blockRef_of_mem {t : ValueType} {ts : List ValueType} (h : t ∈ ts) :
    t ≠ .blockRef ts := by
  rintro rfl
  have hlt := List.sizeOf_lt_of_mem h
  rw [blockRef.sizeOf_spec] at hlt
  omega

namespace Block

theorem typeOf?_of_push {B : Block} {i : Instruction} {r : Register} {t : ValueType}
    (h : (B.push i).typeOf? r = some t) (ht : t ≠ i.type) : B.typeOf? r = some t := by
  have hlt : r.index < (B.push i).registerCount := lt_of_typeOf? h
  rw [push_registerCount] at hlt
  rcases Nat.lt_succ_iff_lt_or_eq.1 hlt with hlt | heq
  · rwa [typeOf?_push_of_lt hlt] at h
  · obtain rfl : r = ⟨B.registerCount⟩ := congrArg Register.mk heq
    rw [typeOf?_push_last] at h
    exact (ht (Option.some.inj h).symm).elim

theorem hasTypes_of_refer {B : Block} {c : BlockId} {rs : List Register} {us ts : List ValueType}
    (h : (B.refer c us).HasTypes rs ts) (hts : ∀ t ∈ ts, t ∈ us) : B.HasTypes rs ts := by
  induction h with
  | nil => exact .nil
  | cons hr _ ih =>
    rw [List.forall_mem_cons] at hts
    exact .cons (typeOf?_of_push hr (ValueType.ne_blockRef_of_mem hts.1)) (ih hts.2)

end Block

namespace Graph

variable {g : Graph} {bs bs' : List BlockId}

theorem allHold_perm (h : bs.Perm bs') : g.allHold bs = g.allHold bs' := by
  funext name
  exact h.all_eq

theorem someHold_perm (h : bs.Perm bs') : g.someHold bs = g.someHold bs' := by
  funext name
  exact h.any_eq

end Graph

namespace Builder

variable {s s' : Builder} {a b child context : BlockId} {preds preds' : List BlockId} {u : Unit}

theorem updateBlock_comm (s : Builder) (hab : a ≠ b) (f f' : Block → Block) :
    (s.updateBlock a f).updateBlock b f' = (s.updateBlock b f').updateBlock a f := by
  have hindex : a.index ≠ b.index := fun h => hab (congrArg BlockId.mk h)
  simp only [updateBlock, Graph.modifyBlock, Builder.mk.injEq, Graph.mk.injEq, and_true]
  apply List.ext_getElem?
  intro n
  simp only [List.getElem?_modify]
  grind

theorem jump_comm (ha : a ≠ child) (hb : b ≠ child) {t : Builder} {v : Unit}
    (hfirst : Runs (jump a child) s u t) (hsecond : Runs (jump b child) t v s') :
    ∃ t', Runs (jump b child) s u t' ∧ Runs (jump a child) t' v s' := by
  by_cases hab : a = b
  · subst hab
    exact ⟨t, hfirst, hsecond⟩
  · obtain ⟨A, T, args, hA, hT, hopen, hargs, htypes, rfl⟩ := runs_jump.1 hfirst
    obtain ⟨B, T', args', hB, hT', hopen', hargs', htypes', rfl⟩ := runs_jump.1 hsecond
    rw [updateBlock_other s (Ne.symm hab)] at hB
    rw [updateBlock_other s (Ne.symm ha)] at hT'
    obtain rfl := Option.some.inj (hT.symm.trans hT')
    refine ⟨_, runs_jump.2 ⟨B, T, args', hB, hT, hopen', hargs', htypes', rfl⟩,
      runs_jump.2 ⟨A, T, args, ?_, ?_, hopen, hargs, htypes, updateBlock_comm s hab _ _⟩⟩
    · rwa [updateBlock_other s hab]
    · rwa [updateBlock_other s (Ne.symm hb)]

theorem jumps_perm (h : preds.Perm preds') (hne : ∀ p ∈ preds, p ≠ child)
    (hruns : Runs (preds.forM (jump · child)) s u s') :
    Runs (preds'.forM (jump · child)) s u s' := by
  induction h generalizing s with
  | nil => exact hruns
  | cons p _ ih =>
    rw [List.forall_mem_cons] at hne
    obtain ⟨t, hp, hrest⟩ := Runs.forM_cons.1 hruns
    exact Runs.forM_cons.2 ⟨t, hp, ih hne.2 hrest⟩
  | swap p q rest =>
    rw [List.forall_mem_cons, List.forall_mem_cons] at hne
    obtain ⟨t, hq, hmore⟩ := Runs.forM_cons.1 hruns
    obtain ⟨t', hp, hrest⟩ := Runs.forM_cons.1 hmore
    obtain ⟨w, hp', hq'⟩ := jump_comm hne.1 hne.2.1 hq hp
    exact Runs.forM_cons.2 ⟨w, hp', Runs.forM_cons.2 ⟨t', hq', hrest⟩⟩
  | trans h₁ _ ih₁ ih₂ =>
    exact ih₂ (fun p hp => hne p (h₁.mem_iff.2 hp)) (ih₁ hne hruns)

theorem stack_of_jump {i : Inflow} {t : Builder} (hp : a ≠ s.graph.nextId)
    (hruns : Runs (jump a s.graph.nextId) (s.addChild preds i) u t) :
    ∃ A, s.graph.block? a = some A ∧ A.HasTypes A.locals.stack i.stack := by
  obtain ⟨A, T, args, hA, hT, -, hargs, htypes, -⟩ := runs_jump.1 hruns
  rw [addChild_block?, if_neg hp] at hA
  rw [addChild_block?, if_pos rfl] at hT
  obtain rfl := Option.some.inj hT
  obtain ⟨slot, carried, rfl, -, -, hdepth⟩ := Signature.arguments_eq_ok.1 hargs
  rw [Inflow.block_parameterTypes] at htypes
  obtain ⟨others, stack, happend, -, hstack⟩ := forall₂_append_right htypes
  have hlength : A.locals.stack.length = stack.length := hdepth.trans hstack.length_eq.symm
  obtain ⟨-, rfl⟩ := List.append_inj' happend hlength
  exact ⟨A, hA, Block.hasTypes_of_refer hstack fun t ht => List.mem_append_right _ ht⟩

theorem converge_of_perm (h : preds.Perm preds') (hruns : Runs (converge context preds) s child s') :
    Runs (converge context preds') s child s' := by
  simp only [converge, Runs.bind_iff, runs_newChild, Runs.pure_iff] at hruns ⊢
  obtain ⟨_, _, ⟨i, hi, rfl, rfl⟩, u, _, hjumps, rfl, rfl⟩ := hruns
  have hne : ∀ p ∈ preds, p ≠ s.graph.nextId := by
    rintro p hp rfl
    obtain ⟨P, hP, -⟩ := hi.depth _ hp
    rw [Graph.block?_nextId] at hP
    cases hP
  have hjumps' := jumps_perm h hne hjumps
  have hchild : s.addChild preds i = s.addChild preds' i := by
    rw [addChild, addChild, Graph.someHold_perm h]
  refine ⟨_, _, ⟨i, ⟨hi.context, ?_, ?_, ?_⟩, rfl, rfl⟩, u, s', hchild ▸ hjumps', rfl, rfl⟩
  · obtain ⟨q, Q, hq, -⟩ := hi.first
    cases preds' with
    | nil => simp [h.eq_nil] at hq
    | cons p rest =>
      obtain ⟨t, hp, -⟩ := Runs.forM_cons.1 hjumps'
      obtain ⟨P, hP, hstack⟩ := stack_of_jump (hne p (h.mem_iff.2 List.mem_cons_self)) hp
      exact ⟨p, P, rfl, hP, hstack⟩
  · intro p hp
    exact hi.depth p (h.mem_iff.2 hp)
  · rw [hi.held, Graph.allHold_perm h]

/-- The predecessors of a new block can be given in any order: it can be made from them in one order
if it can be made in any other, and the outcome is the same. -/
theorem converge_perm {preds preds' : List BlockId} (h : preds.Perm preds') (context : BlockId)
    (s : Builder) (child : BlockId) (s' : Builder) :
    Runs (converge context preds) s child s' ↔ Runs (converge context preds') s child s' :=
  ⟨converge_of_perm h, converge_of_perm h.symm⟩

def twoEnds : Builder where
  graph :=
    { blocks := [
        { id := ⟨0⟩
          parameters := [⟨.prim .u8, some "x"⟩, ⟨.prim .bool, none⟩]
          locals :=
            { symbols := ⟨[("x", ⟨.prim .u8, some ⟨0⟩⟩)], by decide⟩
              stack := [⟨1⟩] } },
        { id := ⟨1⟩
          parameters := [⟨.prim .bool, none⟩]
          locals :=
            { symbols := ⟨[("x", ⟨.prim .u8, none⟩)], by decide⟩
              stack := [⟨0⟩] } }] }

theorem converge_perm_of_twoEnds : ∃ child s',
    Runs (converge ⟨0⟩ [⟨0⟩, ⟨1⟩]) twoEnds child s' ∧ Runs (converge ⟨0⟩ [⟨1⟩, ⟨0⟩]) twoEnds child s' := by
  obtain ⟨⟨child, s'⟩, h⟩ := exists_eq_ok
    (x := ((converge ⟨0⟩ [⟨0⟩, ⟨1⟩]).run twoEnds).result) (by decide +kernel)
  have hperm : List.Perm [(⟨0⟩ : BlockId), ⟨1⟩] [⟨1⟩, ⟨0⟩] := .swap ..
  refine ⟨child, s', h, ?_⟩
  rw [← converge_perm hperm]
  exact h

end Builder

end BlockGraph

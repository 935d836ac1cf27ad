import BlockGraph.Proofs.Lowering.Closed
import BlockGraph.Proofs.Lowering.Nesting

namespace BlockGraph

open Builder Lowering

theorem Block.mem_of_instruction? {B : Block} {r : Register} {i : Instruction}
    (h : B.instruction? r = some i) : i ∈ B.instructions := by
  unfold instruction? at h
  split at h
  · simp at h
  · exact List.mem_of_getElem? h

namespace Graph

/-- Control goes from `b` to `c` and takes along what the signature of `c` finds in the live values
of `b`. -/
def Joins (g : Graph) (b c : BlockId) : Prop :=
  ∃ B C t e, g.block? b = some B ∧ g.block? c = some C ∧ B.terminator = some t ∧ e ∈ t.edges ∧
    B.staticTarget? e.target = some c ∧ C.signature.arguments B.locals b c = .ok e.arguments

variable {g : Graph} {b c : BlockId}

theorem Joins.references (h : g.Joins b c) : c ∈ g.references b := by
  obtain ⟨B, -, -, e, hB, -, -, -, htarget, -⟩ := h
  obtain ⟨i, hi, hc⟩ := Option.bind_eq_some_iff.1 htarget
  exact mem_references.2 ⟨B, hB, List.mem_filterMap.2 ⟨i, Block.mem_of_instruction? hi, hc⟩⟩

theorem Checked.not_joins (hg : g.Checked) {C : Block} (hC : g.block? c = some C)
    (hsig : C.signature = {}) (hparams : C.parameters ≠ []) : ¬g.Joins b c := by
  rintro ⟨B, C', t, e, hB, hC', ht, he, htarget, hargs⟩
  obtain rfl := Option.some.inj (hC.symm.trans hC')
  obtain ⟨i, hi, hc⟩ := Option.bind_eq_some_iff.1 htarget
  have hchecked := (hg b B hB).2
  obtain ⟨ts, hts, htypes⟩ := (hchecked.leaves t ht).2 e he
  obtain ⟨D, hD, htype⟩ := hchecked.references i (Block.mem_of_instruction? hi) c hc
  obtain rfl := Option.some.inj (hC.symm.trans hD)
  rw [Block.typeOf?_of_instruction? hi, htype] at hts
  obtain rfl : C.parameterTypes = ts := by simpa using hts
  rw [hsig] at hargs
  obtain ⟨slot, carried, hargs, hslot, hcarried, hstack⟩ := Signature.arguments_eq_ok.1 hargs
  have hnil : e.arguments = [] := by
    cases hcarried
    simp_all
  have hlen : 0 = C.parameters.length := by
    simpa [hnil, Block.parameterTypes] using htypes.length_eq
  exact hparams (List.eq_nil_of_length_eq_zero hlen.symm)

end Graph

namespace Lowered

def Intra (L : Lowered) (b c : BlockId) : Prop :=
  c ∈ L.graph.references b ∧ ∀ f ∈ L.functions, f.2.entry ≠ c

/-- The block can be reached from the entry without passing the entry of a function. -/
def Owns (L : Lowered) (e b : BlockId) : Prop := Relation.ReflTransGen L.Intra e b

structure Zoned (L : Lowered) (ω : BlockId → Zone) : Prop where
  graph : L.graph.Zoned ω (fun c => ∃ f ∈ L.functions, f.2.entry = c) ⟨L.entry, none⟩
  program : ω L.entry = ⟨L.entry, none⟩
  functions : ∀ f ∈ L.functions, Heads L.graph ω f.2

variable {L : Lowered} {ω : BlockId → Zone} {b c e e' : BlockId}

namespace Zoned

theorem entry (h : L.Zoned ω) (he : e ∈ L.entries) : (ω e).entry = e := by
  rcases List.mem_cons.1 he with rfl | he
  · rw [h.program]
  · obtain ⟨f, hf, rfl⟩ := List.mem_map.1 he
    rw [(h.functions f hf).zone]

theorem inner (h : L.Zoned ω) (hi : L.Intra b c) : (ω b).Inner ω c := by
  obtain ⟨-, ⟨f, hf, rfl⟩ | hin⟩ := h.graph.refs b c hi.1
  · exact absurd rfl (hi.2 f hf)
  · exact hin

theorem owns (h : L.Zoned ω) (ho : L.Owns e b) : ω b = ω e := by
  induction ho with
  | refl => rfl
  | tail _ hi ih => exact (h.inner hi).1.trans ih

theorem eq_of_owns (h : L.Zoned ω) (he : e ∈ L.entries) (he' : e' ∈ L.entries) (hb : L.Owns e b)
    (hb' : L.Owns e' b) : e = e' := by
  rw [← h.entry he, ← h.entry he', ← h.owns hb, ← h.owns hb']

theorem not_intra (h : L.Zoned ω) (he : e ∈ L.entries) : ¬L.Intra b e := by
  intro hi
  obtain ⟨hzone, hne⟩ := h.inner hi
  rw [← hzone] at hne
  exact hne (h.entry he).symm

theorem exists_of_owns (h : L.Zoned ω) (he : e ∈ L.entries) (hb : L.Owns e b) :
    ∃ B, L.graph.block? b = some B := by
  cases hb with
  | tail _ hi => exact (h.graph.refs _ _ hi.1).1
  | refl =>
    rcases List.mem_cons.1 he with rfl | he
    · exact h.graph.entry
    · obtain ⟨f, hf, rfl⟩ := List.mem_map.1 he
      obtain ⟨-, B, hB, -⟩ := h.functions f hf
      exact ⟨B, hB⟩

theorem hasSlot (h : L.Zoned ω) {B : Block} (hb : L.Owns e b) (hB : L.graph.block? b = some B) :
    B.HasSlot (ω e).slot := by
  rw [← h.owns hb]
  exact h.graph.slots b B hB

end Zoned

theorem owns_of_reaches (he : e ∈ L.entries) (h : L.graph.Reaches e b) :
    ∃ e' ∈ L.entries, L.Owns e' b := by
  induction h with
  | refl => exact ⟨e, he, .refl⟩
  | @tail b c _ hc ih =>
    -- the last entry on the way owns the block
    by_cases hentry : ∃ f ∈ L.functions, f.2.entry = c
    · obtain ⟨f, hf, rfl⟩ := hentry
      exact ⟨f.2.entry, List.mem_cons_of_mem _ (List.mem_map_of_mem hf), .refl⟩
    · obtain ⟨e', he', hb⟩ := ih
      exact ⟨e', he', hb.tail ⟨hc, fun f hf hfc => hentry ⟨f, hf, hfc⟩⟩⟩

end Lowered

theorem Lowering.initial_zoned : initial.Zoned (fun _ => ⟨⟨0⟩, none⟩) ⟨⟨0⟩, none⟩ := by
  have hblock {b : BlockId} {B : Block} (hB : initial.graph.block? b = some B) :
      B = { id := ⟨0⟩, parameters := [] } := by
    rw [initial_block?] at hB
    split at hB
    · exact (Option.some.inj hB).symm
    · simp at hB
  refine ⟨⟨fun b B hB => ?_, fun b c hc => ?_, fun _ _ => rfl, ⟨_, rfl⟩⟩, by simp [initial],
    ⟨by simp [initial, waiting], by simp [initial]⟩⟩
  · rw [hblock hB]
    exact .nil
  · obtain ⟨B, hB, hc⟩ := Graph.mem_references.1 hc
    rw [hblock hB] at hc
    simp [Block.referenced] at hc

namespace Program

variable {p : Program} {L : Lowered}

theorem exists_tables (h : p.lower.result = .ok L) :
    ∃ (o : Option BlockId) (s : State) (t : Builder), Runs (lowerScope none ⟨0⟩ p.body) initial o s ∧
      (match o with
        | none => t = s.toBuilder
        | some b => Runs (finish b) s.toBuilder () t) ∧
      L.graph = t.graph ∧ L.entry = ⟨0⟩ ∧
      L.functions = s.functions.toList.map (fun e => (⟨e.1⟩, e.2)) ∧
      L.classes = s.classes.toList.map (fun e => (⟨e.1⟩, e.2)) := by
  obtain ⟨entry, s, hrun, rfl⟩ := lower_eq_ok.1 h
  obtain ⟨rfl, o, s₁, hbody, hend⟩ := runs_lowerProgram.1 hrun
  cases o with
  | none =>
    obtain rfl : s = s₁ := hend
    exact ⟨none, s, s.toBuilder, hbody, rfl, rfl, rfl, rfl, rfl⟩
  | some b =>
    obtain ⟨t, hfinish, rfl⟩ := hend
    exact ⟨some b, s₁, t, hbody, hfinish, rfl, rfl, rfl, rfl⟩

theorem exists_run (h : p.lower.result = .ok L) :
    ∃ (o : Option BlockId) (s : State) (t : Builder), Runs (lowerScope none ⟨0⟩ p.body) initial o s ∧
      (match o with
        | none => t = s.toBuilder
        | some b => Runs (finish b) s.toBuilder () t) ∧
      L.graph = t.graph ∧ L.entry = ⟨0⟩ ∧
      ∀ f, f ∈ L.functions ↔ s.functions[f.1.index]? = some f.2 := by
  obtain ⟨o, s, t, hbody, hend, hgraph, hentry, hfunctions, -⟩ := exists_tables h
  refine ⟨o, s, t, hbody, hend, hgraph, hentry, fun f => ?_⟩
  simp only [hfunctions, List.mem_map, Prod.exists, Std.TreeMap.mem_toList_iff_getElem?_eq_some]
  constructor
  · rintro ⟨n, e, he, rfl⟩
    exact he
  · exact fun hf => ⟨f.1.index, f.2, hf, rfl⟩

theorem extends_end {s t : Builder} {o : Option BlockId}
    (h : match o with
      | none => t = s
      | some b => Runs (finish b) s () t) : s.graph.Extends t.graph := by
  cases o with
  | none =>
    obtain rfl : t = s := h
    exact .refl _
  | some b => exact finish_extends h

theorem lower_reached (hp : p.DistinctFunctions) (h : p.lower.result = .ok L) :
    L.graph.Checked ∧ ∀ b B, L.graph.block? b = some B → ∃ e ∈ L.entries, L.graph.Reaches e b := by
  obtain ⟨o, s, t, hbody, hend, hgraph, hentry, hfunctions⟩ := exists_run h
  obtain ⟨E, hmoves, hentries⟩ := shifts_lowerProgram hp hbody
  have hopens : s.graph.Opens o.toList := by
    simpa using hmoves.opens [] (by simpa using initial_opens)
  obtain ⟨hchecked, hext, hback, -⟩ := Builder.finished (hmoves.steps.checked initial_checked) hopens
    (hmoves.steps.notFinal initial_notFinal) (by cases o <;> exact hend)
  rw [hgraph]
  refine ⟨hchecked, fun b B hB => ?_⟩
  obtain ⟨B', hB'⟩ := hback b B hB
  by_cases hb : b = ⟨0⟩
  · exact ⟨b, by simp [Lowered.entries, hentry, hb], .refl⟩
  · obtain ⟨x, hx, hreach⟩ := hmoves.reach b (by simp [initial_block?, hb]) (by simp [hB'])
    refine ⟨x, ?_, hext.reaches hreach⟩
    rcases hx with hx | hx
    · obtain ⟨k, r, hr, rfl⟩ := hentries x hx
      exact List.mem_cons_of_mem _ (List.mem_map.2 ⟨(⟨k⟩, r), (hfunctions _).2 hr, rfl⟩)
    · simp [Lowered.entries, hentry, List.mem_singleton.1 hx]

theorem exists_zones (hp : p.DistinctFunctions) (h : p.lower.result = .ok L) : ∃ ω, L.Zoned ω := by
  obtain ⟨o, s, t, hbody, hend, hgraph, hentry, hfunctions⟩ := exists_run h
  have hstart : initial.graph.Inside (fun _ => ⟨⟨0⟩, none⟩) ⟨⟨0⟩, none⟩ ⟨0⟩ := ⟨rfl, _, rfl⟩
  obtain ⟨ω, hw, hs, ho⟩ := confines_lowerScope p.body hp ⟨by simp [initial], by simp⟩ hbody
    initial_zoned (by simpa using hstart)
  have ht : t.graph.Zoned ω s.IsEntry ⟨⟨0⟩, none⟩ := by
    cases o with
    | none =>
      obtain rfl : t = s.toBuilder := hend
      exact hs.graph
    | some b => exact zoned_finish hs.graph (ho b (by simp)).1 hend
  have hext : s.graph.Extends t.graph := extends_end (o := o) (by cases o <;> exact hend)
  refine ⟨ω, ⟨?_, ?_, ?_, ?_⟩, ?_, fun f hf => ?_⟩
  · rw [hgraph]
    exact ht.slots
  · rw [hgraph]
    intro b c hc
    refine (ht.refs b c hc).imp_right (Or.imp_left ?_)
    rintro ⟨k, e, he, rfl⟩
    exact ⟨(⟨k⟩, e), (hfunctions _).2 he, rfl⟩
  · rw [hgraph, hentry]
    exact ht.fresh
  · rw [hgraph, hentry]
    exact ht.entry
  · rw [hentry]
    exact (hw _ _ hstart).1
  · rw [hgraph]
    exact (hs.entries _ _ ((hfunctions f).1 hf)).grow hext

theorem nodup_entries (hp : p.DistinctFunctions) (h : p.lower.result = .ok L) :
    (L.functions.map (·.2.entry)).Nodup := by
  obtain ⟨o, s, t, hbody, -, -, -, hfunctions⟩ := exists_run h
  have hs := (shifts_lowerScope p.body hp hbody).registered initial_registered
  obtain ⟨entry, s', -, rfl⟩ := lower_eq_ok.1 h
  refine List.pairwise_map.2 (List.pairwise_map.2 ?_)
  refine Std.TreeMap.distinct_keys_toList.imp_of_mem fun {a b} ha hb hne heq => hne ?_
  have ha := (hfunctions (⟨a.1⟩, a.2)).1 (List.mem_map_of_mem ha)
  have hb := (hfunctions (⟨b.1⟩, b.2)).1 (List.mem_map_of_mem hb)
  exact Nat.compare_eq_eq.2 (hs.entry_inj _ _ _ _ ha hb heq)

/-- **Functions do not share blocks.** The sets of blocks that the entries of a program own are
disjoint and together they are all blocks. No entry is referred to from inside of a set, and no join
leads out of one. The blocks of a function return through the layout of the function; those of the
program itself do not return. -/
theorem lower_partition (hp : p.DistinctFunctions) (h : p.lower.result = .ok L) :
    (L.entries.Pairwise fun e e' => ∀ b, L.Owns e b → ¬L.Owns e' b) ∧
    (∀ b, (∃ B, L.graph.block? b = some B) ↔ ∃ e ∈ L.entries, L.Owns e b) ∧
    (∀ e ∈ L.entries, ∀ b, ¬L.Intra b e ∧ ¬L.graph.Joins b e) ∧
    (∀ e ∈ L.entries, ∀ b c, L.Owns e b → L.graph.Joins b c → L.Owns e c) ∧
    (∀ f ∈ L.functions, ∀ b B, L.Owns f.2.entry b → L.graph.block? b = some B →
      ∃ r, B.locals.returnSlot = some r ∧ B.typeOf? r = some (.object f.2.returns)) ∧
    ∀ b B, L.Owns L.entry b → L.graph.block? b = some B → B.locals.returnSlot = none := by
  obtain ⟨ω, hω⟩ := exists_zones hp h
  obtain ⟨hchecked, hreached⟩ := lower_reached hp h
  have hjoin {b c : BlockId} (hj : L.graph.Joins b c) : L.Intra b c := by
    refine ⟨hj.references, ?_⟩
    rintro f hf rfl
    obtain ⟨-, C, hC, hsig, hparams⟩ := hω.functions f hf
    exact hchecked.not_joins hC hsig hparams hj
  refine ⟨?_, fun b => ⟨?_, ?_⟩, fun e he b => ?_, fun e _ b c hb hj => hb.tail (hjoin hj),
    fun f hf b B hb hB => ?_, fun b B hb hB => ?_⟩
  · have hne : L.entry ∉ L.functions.map (·.2.entry) := by
      intro hmem
      obtain ⟨f, hf, heq⟩ := List.mem_map.1 hmem
      have hzone := (hω.functions f hf).zone
      rw [heq, hω.program] at hzone
      simp at hzone
    refine (List.nodup_cons.2 ⟨hne, nodup_entries hp h⟩).pairwise_of_forall_ne ?_
    exact fun e he e' he' hne b hb hb' => hne (hω.eq_of_owns he he' hb hb')
  · rintro ⟨B, hB⟩
    obtain ⟨e, he, hreach⟩ := hreached b B hB
    exact Lowered.owns_of_reaches he hreach
  · rintro ⟨e, he, hb⟩
    exact hω.exists_of_owns he hb
  · exact ⟨hω.not_intra he, fun hj => hω.not_intra he (hjoin hj)⟩
  · have hslot := hω.hasSlot hb hB
    rw [(hω.functions f hf).zone] at hslot
    cases hr : B.locals.returnSlot with
    | none => simp [Block.HasSlot, Block.HasTypes, hr] at hslot
    | some r => exact ⟨r, rfl, by simpa [Block.HasSlot, Block.HasTypes, hr] using hslot⟩
  · have hslot := hω.hasSlot hb hB
    rw [hω.program] at hslot
    simpa [Block.HasSlot, Block.HasTypes] using hslot

def nested : Program :=
  let n := Sample.byteVar "n"
  let i := Sample.byteVar "i"
  let next : FunctionDecl := {
    id := ⟨0⟩
    name := "next"
    result := Sample.byte
    parameters := [⟨"n", Sample.byte⟩]
    body := { statements := [
      .loop .testLast none (Expr.mkCompare .lt n (Expr.ofU8 9)) { statements := [
        .cond (Expr.mkCompare .eq n (Expr.ofU8 3)) (some { statements := [.jump .leave none] }) none,
        .expr (Expr.mkStep .increment n)] },
      .ret (some n)] } }
  ⟨{ statements := [
    Sample.define Sample.byte "i" (some (Expr.ofU8 0)),
    Sample.whileLoop (Expr.mkCompare .lt i (Expr.ofU8 7)) [
      .scope {
        functions := [next]
        statements := [
          .expr (Expr.mkAssign i (Expr.mkCall next.reference [i])),
          .jump .again none] }]] }⟩

theorem lower_partition_of_nested :
    nested.DistinctFunctions ∧ ∃ L, nested.lower.result = .ok L ∧
      (L.entries.Pairwise fun e e' => ∀ b, L.Owns e b → ¬L.Owns e' b) ∧
      (∀ b, (∃ B, L.graph.block? b = some B) ↔ ∃ e ∈ L.entries, L.Owns e b) ∧
      (∀ e ∈ L.entries, ∀ b, ¬L.Intra b e ∧ ¬L.graph.Joins b e) ∧
      (∀ e ∈ L.entries, ∀ b c, L.Owns e b → L.graph.Joins b c → L.Owns e c) ∧
      (∀ f ∈ L.functions, ∀ b B, L.Owns f.2.entry b → L.graph.block? b = some B →
        ∃ r, B.locals.returnSlot = some r ∧ B.typeOf? r = some (.object f.2.returns)) ∧
      ∀ b B, L.Owns L.entry b → L.graph.block? b = some B → B.locals.returnSlot = none := by
  have hdistinct : nested.DistinctFunctions := by decide
  obtain ⟨L, hL⟩ := exists_eq_ok (x := nested.lower.result) (by decide +kernel)
  exact ⟨hdistinct, L, hL, lower_partition hdistinct hL⟩

end Program

end BlockGraph

import BlockGraph.Proofs.Sessions.Requests

namespace BlockGraph

namespace Block

variable {b b' : Block} {r : Register}

theorem Extends.instruction?_eq (h : b.Extends b') (hr : b.contains r = true) :
    b'.instruction? r = b.instruction? r := by
  obtain ⟨more, hmore⟩ := h.instructions
  have hlt := contains_iff.1 hr
  unfold registerCount at hlt
  simp only [Block.instruction?, h.parameters, ← hmore]
  split
  · rfl
  · exact List.getElem?_append_left (by omega)

theorem Extends.typeOf?_eq (h : b.Extends b') (hr : b.contains r = true) :
    b'.typeOf? r = b.typeOf? r := by
  simp only [Block.typeOf?, h.parameters, h.instruction?_eq hr]

end Block

namespace Builder

variable {s s' : Builder} {u v : Unit}

theorem develops_runAll {qs : List Request} (h : Runs (Request.runAll qs) s u s') :
    Develops (qs.flatMap Request.sources) (fun b => ∃ q ∈ qs, q.Finishes b) s s' := by
  induction qs generalizing s with
  | nil =>
    obtain rfl : s' = s := Runs.forM_nil.1 h
    exact .of_blocks rfl
  | cons q qs ih =>
    obtain ⟨t, hq, hqs⟩ := Runs.forM_cons.1 h
    have hhead : Develops ((q :: qs).flatMap Request.sources)
        (fun b => ∃ p ∈ q :: qs, p.Finishes b) s t :=
      (develops_request hq).mono (by simp +contextual) fun b hb => ⟨q, by simp, hb⟩
    refine hhead.trans ((ih hqs).mono (by simp +contextual) ?_)
    rintro b ⟨p, hp, hb⟩
    exact ⟨p, List.mem_cons_of_mem q hp, hb⟩

theorem id_runAll {qs : List Request} (h : Runs (Request.runAll qs) {} u s) {b : BlockId} {B : Block}
    (hB : s.graph.block? b = some B) : B.id = b :=
  (develops_runAll h).fresh b B (by simp [Graph.block?]) hB

theorem Lays.layout? {q : Request} (h : Lays s q s') {l : LayoutId} {L : Layout}
    (hL : s.graph.layout? l = some L) :
    ∃ L', s'.graph.layout? l = some L' ∧ L'.origin = L.origin ∧
      (¬q.Defines l → L'.fields = L.fields) := by
  cases h with
  | same _ hsame => exact ⟨L, by rwa [Graph.layout?, hsame.1], rfl, fun _ => rfl⟩
  | known _ => exact ⟨L, hL, rfl, fun _ => rfl⟩
  | register hnew =>
    refine ⟨L, ?_, rfl, fun _ => rfl⟩
    rw [hnew.2.1]
    exact appendLayout_layout?_of_some hL
  | declare name => exact ⟨L, appendLayout_layout?_of_some hL, rfl, fun _ => rfl⟩
  | keep fields => exact ⟨L, appendLayout_layout?_of_some hL, rfl, fun _ => rfl⟩
  | @define k _ fields _ =>
    refine ⟨if l = k then { L with fields } else L, by rw [setFields_layout?, hL]; rfl, ?_,
      fun hq => ?_⟩
    · split <;> rfl
    · have hne : l ≠ k := by
        rintro rfl
        exact hq ⟨fields, rfl⟩
      simp [hne]

theorem layout?_runAll {qs : List Request} (h : Runs (Request.runAll qs) s u s') {l : LayoutId}
    {L : Layout} (hL : s.graph.layout? l = some L) :
    ∃ L', s'.graph.layout? l = some L' ∧ L'.origin = L.origin ∧
      ((∀ q ∈ qs, ¬q.Defines l) → L'.fields = L.fields) := by
  induction qs generalizing s L with
  | nil =>
    obtain rfl : s' = s := Runs.forM_nil.1 h
    exact ⟨L, hL, rfl, fun _ => rfl⟩
  | cons q qs ih =>
    obtain ⟨t, hq, hqs⟩ := Runs.forM_cons.1 h
    obtain ⟨L₁, hL₁, horigin₁, hfields₁⟩ := (lays_request hq).layout? hL
    obtain ⟨L₂, hL₂, horigin₂, hfields₂⟩ := ih hqs hL₁
    refine ⟨L₂, hL₂, horigin₂.trans horigin₁, fun hdef => ?_⟩
    rw [hfields₂ fun p hp => hdef p (List.mem_cons_of_mem q hp), hfields₁ (hdef q List.mem_cons_self)]

/-- Between two points of a construction nothing that is there changes but by growth. Blocks have
their places as ids, and blocks and layouts keep them; parameters, signatures and all registers stay
as they are, and a block with a way out keeps its code and its way out. New code is only in blocks
that a request adds to or jumps from. -/
theorem runAll_appendOnly {before after : List Request} (h : Runs (Request.runAll before) {} u s)
    (h' : Runs (Request.runAll after) s v s') :
    (∀ b B, s.graph.block? b = some B → B.id = b) ∧
    (∀ b B, s'.graph.block? b = some B → B.id = b) ∧
    (∀ b B, s.graph.block? b = some B → ∃ B', s'.graph.block? b = some B' ∧
      B'.parameters = B.parameters ∧ B'.signature = B.signature ∧
      B.instructions <+: B'.instructions ∧
      (∀ r, B.contains r = true →
        B'.typeOf? r = B.typeOf? r ∧ B'.instruction? r = B.instruction? r) ∧
      (B.isTerminated = true → B'.instructions = B.instructions ∧ B'.terminator = B.terminator ∧
        B'.isFinal = B.isFinal) ∧
      ((∀ q ∈ after, b ∉ q.sources) →
        B'.instructions = B.instructions ∧ B'.terminator = B.terminator) ∧
      ((∀ q ∈ after, ¬q.Finishes b) → B'.isFinal = B.isFinal)) ∧
    (∀ l L, s.graph.layout? l = some L → ∃ L', s'.graph.layout? l = some L' ∧
      L'.origin = L.origin ∧ ((∀ q ∈ after, ¬q.Defines l) → L'.fields = L.fields)) := by
  refine ⟨fun b B => id_runAll h, fun b B => id_runAll (runAll_append.2 ⟨s, h, h'⟩),
    fun b B hB => ?_, fun l L => layout?_runAll h'⟩
  have hdev := develops_runAll h'
  obtain ⟨B', hB', hext⟩ := hdev.extends_ b B hB
  refine ⟨B', hB', hext.parameters, hext.signature, hext.instructions,
    fun r hr => ⟨hext.typeOf?_eq hr, hext.instruction?_eq hr⟩, hext.closed, fun hafter => ?_,
    fun hafter => ?_⟩
  · exact hdev.code b B B' (by simpa using hafter) hB hB'
  · exact hdev.final b B B' (by simpa using hafter) hB hB'

def overtaken : List Request × List Request :=
  ([.act (.addBlock []), .emit ⟨0⟩ (.literal (.bool true)) (.prim .bool),
      .act (.define ⟨0⟩ "x" ⟨.prim .bool, some ⟨0⟩⟩), .act (.declareClass "Point"),
      .act (.enter ⟨0⟩)],
    [.act (.addBlock []), .emit ⟨1⟩ (.blockRef ⟨0⟩) (.prim .u8),
      .act (.defineClass ⟨0⟩ [.prim .u8]), .act (.branch ⟨1⟩ ⟨0⟩), .act (.finish ⟨2⟩)])

theorem runAll_appendOnly_of_overtaken :
    ∃ s s', Runs (Request.runAll overtaken.1) {} () s ∧ Runs (Request.runAll overtaken.2) s () s' ∧
      (s.graph.block? ⟨0⟩).any (·.isTerminated) = true ∧
      ∀ B, s.graph.block? ⟨0⟩ = some B → ∃ B', s'.graph.block? ⟨0⟩ = some B' ∧
        B'.instructions = B.instructions ∧ B'.terminator = B.terminator := by
  obtain ⟨⟨u, s⟩, h⟩ :=
    exists_eq_ok (x := ((Request.runAll overtaken.1).run {}).result) (by decide +kernel)
  have hclosed : ((Request.runAll overtaken.1).run {}).result.toOption.any (fun x =>
      (x.2.graph.block? ⟨0⟩).any (·.isTerminated)) = true := by
    decide +kernel
  obtain ⟨⟨v, s'⟩, h'⟩ :=
    exists_eq_ok (x := ((Request.runAll (overtaken.1 ++ overtaken.2)).run {}).result)
      (by decide +kernel)
  obtain ⟨t, ht, hrest⟩ := runAll_append.1 h'
  obtain ⟨-, rfl⟩ := Runs.unique h ht
  refine ⟨s, s', h, hrest, by simpa [h, Except.toOption] using hclosed, fun B hB => ?_⟩
  obtain ⟨-, -, hblocks, -⟩ := runAll_appendOnly h hrest
  obtain ⟨B', hB', -, -, -, -, -, hcode, -⟩ := hblocks ⟨0⟩ B hB
  exact ⟨B', hB', hcode (by decide)⟩

end Builder

end BlockGraph

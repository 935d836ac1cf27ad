import BlockGraph.Proofs.Graph.Growth
import BlockGraph.Proofs.Builder.Layouts

/-!
Continuations are handed over once. A caller makes an object, stores a reference to the block where it
goes on in the first field, and gives the object away; nothing else ever refers to that block.
-/

namespace BlockGraph

theorem Locals.mem_liveRegisters {l : Locals} {r : Register} :
    r ∈ l.liveRegisters ↔ l.returnSlot = some r ∨
      (∃ e ∈ l.symbols.entries, e.2.register = some r) ∨ r ∈ l.stack := by
  simp [liveRegisters, OrderedMap.values]

namespace Block

variable {B B' : Block}

/-- A caller goes on in this block: its parameters carry no live values of a block before it, and they
are not those of a function either, whose first one is the return slot. -/
structure Resumes (B : Block) : Prop where
  parameters : B.parameters ≠ []
  signature : B.signature = {}
  slot : B.locals.returnSlot ≠ some ⟨0⟩

def LoadsSlot (B : Block) : Prop :=
  ∀ r, B.locals.returnSlot = some r → ∃ o n t, B.instruction? r = some ⟨.getField o n, t⟩

/-- At the register `r` the block makes an object of the layout `l`, refers to the block `c` and stores
the reference in the first field of the object. It makes no other use of the reference. -/
structure HandsOver (B : Block) (r : Nat) (l : LayoutId) (c : BlockId) : Prop where
  new : B.instruction? ⟨r⟩ = some ⟨.new l, .object l⟩
  refer : ∃ t, B.instruction? ⟨r + 1⟩ = some ⟨.blockRef c, t⟩
  store : ∃ t, B.instruction? ⟨r + 2⟩ = some ⟨.setField ⟨r⟩ 0 ⟨r + 1⟩, t⟩
  once : ∀ q i, B.instruction? q = some i → ⟨r + 1⟩ ∈ i.operation.operands → q = ⟨r + 2⟩
  exit : ∀ t, B.terminator = some t → ⟨r + 1⟩ ∉ t.registers

def Unpacks (B : Block) (l : LayoutId) : Prop :=
  B.instruction? ⟨B.parameters.length⟩ = some ⟨.cast .downcast ⟨0⟩, .object l⟩

theorem instruction?_of_prefix (hparams : B'.parameters = B.parameters)
    (h : B.instructions <+: B'.instructions) {r : Register} {i : Instruction}
    (hr : B.instruction? r = some i) : B'.instruction? r = some i := by
  unfold instruction? at hr ⊢
  rw [hparams]
  split at hr
  · simp at hr
  case isFalse hlt =>
    rw [if_neg hlt]
    obtain ⟨more, hmore⟩ := h
    rw [← hmore, List.getElem?_append_left (List.getElem?_eq_some_iff.1 hr).1]
    exact hr

theorem Extends.instruction? (h : B.Extends B') {r : Register} {i : Instruction}
    (hr : B.instruction? r = some i) : B'.instruction? r = some i :=
  instruction?_of_prefix h.parameters h.instructions hr

theorem Resumes.mono (h : B.Resumes) (hext : B.Extends B')
    (hslot : B'.locals.returnSlot = B.locals.returnSlot) : B'.Resumes :=
  ⟨hext.parameters ▸ h.parameters, hext.signature ▸ h.signature, hslot ▸ h.slot⟩

theorem Resumes.of_mono (h : B'.Resumes) (hext : B.Extends B')
    (hslot : B'.locals.returnSlot = B.locals.returnSlot) : B.Resumes :=
  ⟨hext.parameters ▸ h.parameters, hext.signature ▸ h.signature, hslot ▸ h.slot⟩

theorem LoadsSlot.mono (h : B.LoadsSlot) (hext : B.Extends B')
    (hslot : B'.locals.returnSlot = B.locals.returnSlot) : B'.LoadsSlot := fun r hr => by
  obtain ⟨o, n, t, hi⟩ := h r (hslot ▸ hr)
  exact ⟨o, n, t, hext.instruction? hi⟩

theorem Unpacks.mono {l : LayoutId} (h : B.Unpacks l) (hext : B.Extends B') : B'.Unpacks l := by
  rw [Unpacks, hext.parameters]
  exact hext.instruction? h

theorem HandsOver.mono {r : Nat} {l : LayoutId} {c : BlockId} (h : B.HandsOver r l c)
    (hext : B.Extends B') (hclosed : B.isTerminated = true) : B'.HandsOver r l c := by
  obtain ⟨hcode, hexit, -⟩ := hext.closed hclosed
  have hsame (q : Register) : B'.instruction? q = B.instruction? q := by
    rw [instruction?, instruction?, hext.parameters, hcode]
  refine ⟨by rw [hsame]; exact h.new, by simpa only [hsame] using h.refer,
    by simpa only [hsame] using h.store, fun q i hq => h.once q i (by rwa [← hsame]), fun t ht => ?_⟩
  exact h.exit t (by rwa [← hexit])

end Block

namespace Graph

def IsContext (g : Graph) (l : LayoutId) : Prop :=
  ∃ L, g.layout? l = some L ∧ L.origin = .ofContext

def IsReturn (g : Graph) (l : LayoutId) : Prop :=
  ∃ L, g.layout? l = some L ∧ L.origin = .ofReturn

def InstructionAt (g : Graph) (b : BlockId) (r : Register) (i : Instruction) : Prop :=
  ∃ B, g.block? b = some B ∧ B.instruction? r = some i

/-- The block `b` hands its continuation, the block `c`, over in the object of the layout `l` that it
makes at its register `r`. No other instruction refers to `c`; and if the layout is a context, no
other one makes an object of it or casts to it. -/
structure Handover (g : Graph) (b : BlockId) (r : Nat) (l : LayoutId) (c : BlockId) : Prop where
  caller : ∃ B, g.block? b = some B ∧ B.isTerminated = true ∧ B.HandsOver r l c
  resumed : ∃ R, g.block? c = some R ∧ R.Resumes ∧ R.LoadsSlot ∧
    (g.IsReturn l ∨ g.IsContext l ∧ R.Unpacks l ∧
      ∀ d q o, g.InstructionAt d q ⟨.cast .downcast o, .object l⟩ →
        d = c ∧ q = ⟨R.parameters.length⟩)
  reference : ∀ d q t, g.InstructionAt d q ⟨.blockRef c, t⟩ → d = b ∧ q = ⟨r + 1⟩
  allocation : g.IsContext l → ∀ d q t, g.InstructionAt d q ⟨.new l, t⟩ → d = b ∧ q = ⟨r⟩

/-- Every context belongs to one handover, and so does every block where a caller goes on. All casts
down are to contexts. -/
structure Linear (g : Graph) : Prop where
  contexts : ∀ l, g.IsContext l → ∃ b r c, g.Handover b r l c
  resumptions : ∀ c R, g.block? c = some R → R.Resumes → ∃ b r l, g.Handover b r l c
  downcasts : ∀ d q o t, g.InstructionAt d q ⟨.cast .downcast o, t⟩ → ∃ l, t = .object l ∧ g.IsContext l

structure Spares (g : Graph) (i : Instruction) : Prop where
  new : ∀ l t, i = ⟨.new l, t⟩ → ¬g.IsContext l
  refer : ∀ c t R, i = ⟨.blockRef c, t⟩ → g.block? c = some R → ¬R.Resumes
  downcast : ∀ o l, i = ⟨.cast .downcast o, .object l⟩ → ¬g.IsContext l

structure Preserves (g g' : Graph) : Prop where
  blocks : ∀ c B, g.block? c = some B → ∃ B', g'.block? c = some B' ∧ B.Extends B' ∧
    B'.locals.returnSlot = B.locals.returnSlot
  origins : ∀ l L, g.layout? l = some L → ∃ L', g'.layout? l = some L' ∧ L'.origin = L.origin
  code : ∀ d q i, g'.InstructionAt d q i → g.InstructionAt d q i ∨ g.Spares i

structure Quiet (g g' : Graph) : Prop extends Preserves g g' where
  contexts : ∀ l, g'.IsContext l → g.IsContext l
  resumptions : ∀ c R, g'.block? c = some R → R.Resumes → ∃ B, g.block? c = some B
  downcasts : ∀ d q o t, g'.InstructionAt d q ⟨.cast .downcast o, t⟩ →
    g.InstructionAt d q ⟨.cast .downcast o, t⟩

variable {g g' : Graph} {b c : BlockId} {r : Nat} {l : LayoutId}

theorem IsContext.mono (h : g.IsContext l) (hg : g.Preserves g') : g'.IsContext l := by
  obtain ⟨L, hL, horigin⟩ := h
  obtain ⟨L', hL', horigin'⟩ := hg.origins l L hL
  exact ⟨L', hL', horigin'.trans horigin⟩

theorem IsReturn.mono (h : g.IsReturn l) (hg : g.Preserves g') : g'.IsReturn l := by
  obtain ⟨L, hL, horigin⟩ := h
  obtain ⟨L', hL', horigin'⟩ := hg.origins l L hL
  exact ⟨L', hL', horigin'.trans horigin⟩

theorem Preserves.refl (g : Graph) : g.Preserves g :=
  ⟨fun _ B hB => ⟨B, hB, .refl B, rfl⟩, fun _ L hL => ⟨L, hL, rfl⟩, fun _ _ _ h => .inl h⟩

theorem Spares.of_mono {i : Instruction} (h : g'.Spares i) (hg : g.Preserves g') : g.Spares i := by
  refine ⟨fun l t hi hl => h.new l t hi (hl.mono hg), fun c t R hi hR hresumes => ?_,
    fun o l hi hl => h.downcast o l hi (hl.mono hg)⟩
  obtain ⟨R', hR', hext, hslot⟩ := hg.blocks c R hR
  exact h.refer c t R' hi hR' (hresumes.mono hext hslot)

theorem Preserves.trans {g'' : Graph} (h : g.Preserves g') (k : g'.Preserves g'') :
    g.Preserves g'' := by
  refine ⟨fun c B hB => ?_, fun l L hL => ?_, fun d q i hi => ?_⟩
  · obtain ⟨B', hB', hext, hslot⟩ := h.blocks c B hB
    obtain ⟨B'', hB'', hext', hslot'⟩ := k.blocks c B' hB'
    exact ⟨B'', hB'', hext.trans hext', hslot'.trans hslot⟩
  · obtain ⟨L', hL', horigin⟩ := h.origins l L hL
    obtain ⟨L'', hL'', horigin'⟩ := k.origins l L' hL'
    exact ⟨L'', hL'', horigin'.trans horigin⟩
  · rcases k.code d q i hi with hi | hspares
    · exact h.code d q i hi
    · exact .inr (hspares.of_mono h)

def IsTarget (g : Graph) (c : BlockId) : Prop := ∃ B, g.block? c = some B ∧ ¬B.Resumes

theorem IsTarget.mono (h : g.IsTarget c) (hg : g.Preserves g') : g'.IsTarget c := by
  obtain ⟨B, hB, hnot⟩ := h
  obtain ⟨B', hB', hext, hslot⟩ := hg.blocks c B hB
  exact ⟨B', hB', fun hresumes => hnot (hresumes.of_mono hext hslot)⟩

theorem IsReturn.not_isContext (h : g.IsReturn l) : ¬g.IsContext l := by
  rintro ⟨L, hL, horigin⟩
  obtain ⟨L', hL', horigin'⟩ := h
  obtain rfl := Option.some.inj (hL.symm.trans hL')
  simp [horigin] at horigin'

theorem Handover.mono (h : g.Handover b r l c) (hg : g.Preserves g') : g'.Handover b r l c := by
  obtain ⟨B, hB, hclosed, hands⟩ := h.caller
  obtain ⟨B', hB', hext, -⟩ := hg.blocks b B hB
  obtain ⟨R, hR, hresumes, hloads, hunpacks⟩ := h.resumed
  obtain ⟨R', hR', hextR, hslot⟩ := hg.blocks c R hR
  refine ⟨⟨B', hB', ?_, hands.mono hext hclosed⟩,
    ⟨R', hR', hresumes.mono hextR hslot, hloads.mono hextR hslot, ?_⟩, ?_, ?_⟩
  · obtain ⟨-, hexit, hfinal⟩ := hext.closed hclosed
    rwa [Block.isTerminated, hexit, hfinal]
  · rcases hunpacks with hreturn | ⟨hcontext, hunpacks, honly⟩
    · exact .inl (hreturn.mono hg)
    · refine .inr ⟨hcontext.mono hg, hunpacks.mono hextR, fun d q o hcast => ?_⟩
      rw [hextR.parameters]
      rcases hg.code d q _ hcast with hcast | hspares
      · exact honly d q o hcast
      · exact absurd hcontext (hspares.downcast o l rfl)
  · intro d q t href
    rcases hg.code d q _ href with href | hspares
    · exact h.reference d q t href
    · exact absurd hresumes (hspares.refer c t R rfl hR)
  · intro hcontext d q t hnew
    have hcontext' : g.IsContext l := by
      rcases hunpacks with hreturn | ⟨hcontext', -⟩
      · exact absurd hcontext (hreturn.mono hg).not_isContext
      · exact hcontext'
    rcases hg.code d q _ hnew with hnew | hspares
    · exact h.allocation hcontext' d q t hnew
    · exact absurd hcontext' (hspares.new l t rfl)

theorem Linear.extend (h : g.Linear) (hg : g.Preserves g') {P : Prop}
    (hnew : P → g'.Handover b r l c) (hcontexts : ∀ k, g'.IsContext k → g.IsContext k ∨ P ∧ k = l)
    (hresumptions : ∀ d R, g'.block? d = some R → R.Resumes → (∃ B, g.block? d = some B) ∨ P ∧ d = c)
    (hdowncasts : ∀ d q o t, g'.InstructionAt d q ⟨.cast .downcast o, t⟩ →
      g.InstructionAt d q ⟨.cast .downcast o, t⟩ ∨ ∃ k, t = .object k ∧ g'.IsContext k) :
    g'.Linear := by
  refine ⟨fun k hk => ?_, fun d R' hR' hresumes => ?_, fun d q o t hcast => ?_⟩
  · rcases hcontexts k hk with hk | ⟨hP, rfl⟩
    · obtain ⟨b, r, c, hhand⟩ := h.contexts k hk
      exact ⟨b, r, c, hhand.mono hg⟩
    · exact ⟨b, r, c, hnew hP⟩
  · rcases hresumptions d R' hR' hresumes with ⟨R, hR⟩ | ⟨hP, rfl⟩
    · obtain ⟨R'', hR'', hext, hslot⟩ := hg.blocks d R hR
      obtain rfl := Option.some.inj (hR''.symm.trans hR')
      obtain ⟨b, r, l, hhand⟩ := h.resumptions d R hR (hresumes.of_mono hext hslot)
      exact ⟨b, r, l, hhand.mono hg⟩
    · exact ⟨b, r, l, hnew hP⟩
  · rcases hdowncasts d q o t hcast with hcast | hcontext
    · obtain ⟨k, rfl, hk⟩ := h.downcasts d q o t hcast
      exact ⟨k, rfl, hk.mono hg⟩
    · exact hcontext

theorem Linear.mono (h : g.Linear) (hg : g.Quiet g') : g'.Linear :=
  h.extend (b := ⟨0⟩) (r := 0) (l := ⟨0⟩) (c := ⟨0⟩) hg.toPreserves (P := False) nofun
    (fun k hk => .inl (hg.contexts k hk)) (fun d R hR hresumes => .inl (hg.resumptions d R hR hresumes))
    fun d q o t hcast => .inl (hg.downcasts d q o t hcast)

end Graph

end BlockGraph

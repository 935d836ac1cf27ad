import BlockGraph.Proofs.Builder.Slots
import BlockGraph.Proofs.Course.Plans
import BlockGraph.Proofs.Lowering.Faults
import BlockGraph.Proofs.Lowering.Zones
import BlockGraph.Proofs.Sessions.Asks
import BlockGraph.Proofs.Verification.Copies

namespace BlockGraph.Lowering

open Builder

structure State.Sound (s : State) : Prop extends State.Registered s where
  returning : s.toBuilder.Returning
  slots : s.graph.Slotted
  checked : s.graph.Checked
  copies : s.graph.CopiesTyped
  session : Session s.classes s.toBuilder

theorem State.sound_empty : ({} : State).Sound where
  entry := by simp
  entry_inj := by simp
  layout := by simp
  layout_inj := by simp
  returning _ _ h := by cases h
  slots _ _ h := by cases h
  checked _ _ h := by cases h
  copies _ _ h := by cases h
  session := ⟨[], fun _ _ _ _ h => by simp at h, rfl, by simp⟩

structure Proceeds (fs : List FunctionId) (cs : List ClassId) (s s' : State) : Prop where
  graph : s.graph.Extends s'.graph
  locals : s.graph.Maintains s'.graph
  returns : ∀ t l, s.returnLayouts.get? t = some l → s'.returnLayouts.get? t = some l
  functions : ∀ k : Nat, (∀ f ∈ fs, f.index ≠ k) → s'.functions[k]? = s.functions[k]?
  classes : ∀ k : Nat, (∀ c ∈ cs, c.index ≠ k) → s'.classes[k]? = s.classes[k]?
  sound : s.Sound → s'.Sound
  diagnostics : s.diagnostics ⊆ s'.diagnostics

namespace Proceeds

variable {fs fs' : List FunctionId} {cs cs' : List ClassId} {X Y : List BlockId} {s s' s'' : State}

theorem of_shifts (h : Shifts fs cs X s Y s') (hlocals : s.graph.Maintains s'.graph)
    (hsession : s.Continues s') : Proceeds fs cs s s' := by
  obtain ⟨E, N, hmoves, -⟩ := h.moves
  exact ⟨hmoves.graph_extends, hlocals, hmoves.returns, h.functions, h.classes, fun hs =>
    ⟨h.registered hs.toRegistered, hmoves.returning hs.returning, hlocals.slots hs.slots,
      hmoves.steps.checked hs.checked, hmoves.steps.copiesTyped hs.copies, hsession hs.session⟩,
    hmoves.steps.diagnostics⟩

theorem of_builder {t : Builder} (hext : s.graph.Extends t.graph)
    (hlayouts : ∀ l L, s.graph.layout? l = some L → t.graph.layout? l = some L)
    (hreturns : ∀ v l, s.returnLayouts.get? v = some l → t.returnLayouts.get? v = some l)
    (hreturning : s.toBuilder.Returning → t.Returning)
    (hlocals : s.graph.Maintains t.graph) (hchecked : s.graph.Checked → t.graph.Checked)
    (hcopies : s.graph.CopiesTyped → t.graph.CopiesTyped)
    (hsession : Session s.classes s.toBuilder → Session s.classes t)
    (hdiagnostics : s.diagnostics ⊆ t.diagnostics) : Proceeds [] [] s { s with toBuilder := t } where
  graph := hext
  locals := hlocals
  returns := hreturns
  functions _ _ := rfl
  classes _ _ := rfl
  sound hs := by
    refine ⟨⟨fun k e he => ?_, hs.entry_inj, fun k l hl => ?_, hs.layout_inj⟩,
      hreturning hs.returning, hlocals.slots hs.slots, hchecked hs.checked, hcopies hs.copies,
      hsession hs.session⟩
    · obtain ⟨B, hB⟩ := hs.entry k e he
      obtain ⟨B', hB', -⟩ := hext _ B hB
      exact ⟨B', hB'⟩
    · obtain ⟨L, name, hL, ho⟩ := hs.layout k l hl
      exact ⟨L, name, hlayouts l L hL, ho⟩
  diagnostics := hdiagnostics

theorem of_moves {E : List BlockId} {t : Builder} (h : Moves E X s.toBuilder Y t)
    (hlocals : s.graph.Maintains t.graph)
    (hsession : Session s.classes s.toBuilder → Session s.classes t) :
    Proceeds [] [] s { s with toBuilder := t } :=
  of_builder h.graph_extends h.layouts h.returns h.returning hlocals h.steps.checked h.steps.copiesTyped
    hsession h.steps.diagnostics

theorem of_rebuilds (h : Rebuilds X s Y s') (hlocals : s.graph.Maintains s'.graph)
    (hsession : s.Continues s') : Proceeds [] [] s s' := by
  obtain ⟨t, ht, rfl⟩ := h
  exact of_moves ht hlocals hsession

theorem refl (s : State) : Proceeds [] [] s s := of_rebuilds (.refl [] s) (.refl _) fun h => h

theorem of_edits {α : Type} {b : BlockId} {x : BuildM α} {a : α} {t : Builder} (hx : Edits b x)
    (h : Runs x s.toBuilder a t) : Proceeds [] [] s { s with toBuilder := t } :=
  of_moves (hx.stays h).toMoves (hx.stays h).maintains fun hs => hs.asks (.edits hx) h

theorem report (s : State) (d : Diagnostic) :
    Proceeds [] [] s { s with diagnostics := s.diagnostics ++ [d] } :=
  of_moves (.report _ _) (.refl _) fun hs => hs.asks .report (a := ()) (runs_report.2 rfl)

theorem jump {b c : BlockId} {u : Unit} {t : Builder} (h : Runs (jump b c) s.toBuilder u t) :
    Proceeds [] [] s { s with toBuilder := t } :=
  of_moves (moves_jump h).1 (maintains_jump h) fun hs => hs.asks .jump h

theorem converge {b c : BlockId} {preds : List BlockId} {t : Builder}
    (h : Runs (converge b preds) s.toBuilder c t) : Proceeds [] [] s { s with toBuilder := t } :=
  of_moves (moves_converge h) (maintains_converge h) fun hs => hs.asks .converge h

theorem branch {b : BlockId} {r : Register} {p : BlockId × BlockId} {t t' : Builder}
    (hlast : Runs (lastRegister b) s.toBuilder r t) (hbranch : Runs (branch b r) t p t') :
    Proceeds [] [] s { s with toBuilder := t' } := by
  have hrebuild := rebuilds_branch hlast hbranch
  obtain ⟨-, -, -, rfl⟩ := runs_lastRegister.1 hlast
  exact of_rebuilds hrebuild (maintains_branch hbranch) fun hs => hs.asks .branch hbranch

theorem trans (h : Proceeds fs cs s s') (k : Proceeds fs' cs' s' s'') :
    Proceeds (fs ++ fs') (cs ++ cs') s s'' where
  graph := h.graph.trans k.graph
  locals := h.locals.trans k.locals
  returns t l hl := k.returns t l (h.returns t l hl)
  functions n hn := by
    rw [k.functions n fun f hf => hn f (List.mem_append_right _ hf),
      h.functions n fun f hf => hn f (List.mem_append_left _ hf)]
  classes n hn := by
    rw [k.classes n fun c hc => hn c (List.mem_append_right _ hc),
      h.classes n fun c hc => hn c (List.mem_append_left _ hc)]
  sound hs := k.sound (h.sound hs)
  diagnostics := List.Subset.trans h.diagnostics k.diagnostics

theorem mono (h : Proceeds fs cs s s') (hf : ∀ f ∈ fs, f ∈ fs') (hc : ∀ c ∈ cs, c ∈ cs') :
    Proceeds fs' cs' s s' where
  graph := h.graph
  locals := h.locals
  returns := h.returns
  functions n hn := h.functions n fun f hf' => hn f (hf f hf')
  classes n hn := h.classes n fun c hc' => hn c (hc c hc')
  sound := h.sound
  diagnostics := h.diagnostics

theorem withLoops (s : State) (ls : List LoopFrame) : Proceeds [] [] s { s with loops := ls } where
  graph := .refl _
  locals := .refl _
  returns _ _ h := h
  functions _ _ := rfl
  classes _ _ := rfl
  sound hs := ⟨⟨hs.entry, hs.entry_inj, hs.layout, hs.layout_inj⟩, hs.returning, hs.slots, hs.checked,
    hs.copies, hs.session⟩
  diagnostics := List.Subset.refl _

theorem retains (h : Proceeds fs cs s s') (hnew : Unknown fs cs s) : Retains s s' := by
  refine ⟨h.graph, h.returns, fun k l hl => ?_, fun k e he => ?_⟩
  · rw [h.classes k, hl]
    rintro c hc rfl
    simp [hnew.classes c hc] at hl
  · rw [h.functions k, he]
    rintro f hf rfl
    simp [hnew.functions f hf] at he

theorem unknown (h : Proceeds fs cs s s') (hnew : Unknown fs' cs' s) (hf : fs.Disjoint fs')
    (hc : cs.Disjoint cs') : Unknown fs' cs' s' := by
  refine ⟨fun f' hf' => ?_, fun c' hc' => ?_⟩
  · rw [h.functions _ fun f hf'' hi => hf hf'' ?_, hnew.functions f' hf']
    obtain rfl : f = f' := by cases f; cases f'; simp_all
    exact hf'
  · rw [h.classes _ fun c hc'' hi => hc hc'' ?_, hnew.classes c' hc']
    obtain rfl : c = c' := by cases c; cases c'; simp_all
    exact hc'

end Proceeds

namespace Task

def scopes : {α : Type} → Task α → List Scope
  | _, .scope _ _ body => body.scopes
  | _, .functions ds => functionScopes ds
  | _, .function d => d.scopes
  | _, .stmts _ _ ss => stmtScopes ss
  | _, .stmt _ _ s => s.scopes
  | _, .arm _ _ body => armScopes body
  | _, .program p => p.body.scopes
  | _, _ => []

def declares : {α : Type} → Task α → List FunctionId
  | _, .entry f => [f.id]
  | _, x => functionIds x.scopes

end Task

/-- The plan makes the functions `fs` and the classes `cs` known, in this order. If it ends in a fault
about an edge, the fault shows two different texts. -/
inductive Plan.Within : {α : Type} → Plan α → List FunctionId → List ClassId → Prop
  | act {α : Type} {x : LowerM α} {fs : List FunctionId} {cs : List ClassId}
      (h : ∀ ⦃s a s'⦄, Runs x s a s' → Proceeds fs cs s s') (hd : Discerns x) : Within (.act x) fs cs
  | call {α : Type} (x : Task α) (h : Within x.plan x.declares (classIds x.scopes)) :
      Within (.call x) x.declares (classIds x.scopes)
  | bind {α β : Type} {c : Plan α} {f : α → Plan β} {fs fs' : List FunctionId} {cs cs' : List ClassId}
      (hc : Within c fs cs) (hf : ∀ a, Within (f a) fs' cs') :
      Within (.bind c f) (fs ++ fs') (cs ++ cs')

namespace Plan.Within

variable {α β : Type} {c : Plan α} {f : α → Plan β} {fs fs' : List FunctionId} {cs cs' : List ClassId}
  {s s' : State} {a : α}

theorem proceeds (h : c.Within fs cs) (hrun : Runs c.run s a s') : Proceeds fs cs s s' := by
  induction h generalizing s s' with
  | act h _ => exact h hrun
  | call x _ ih =>
    rw [run_call, ← Task.run_plan] at hrun
    exact ih hrun
  | bind _ _ ihc ihf =>
    obtain ⟨b, t, hc, hf⟩ := Runs.bind_iff.1 hrun
    exact (ihc hc).trans (ihf b hf)

theorem discerns (h : c.Within fs cs) : Discerns c.run := by
  induction h with
  | act _ hd => exact hd
  | call x _ ih =>
    rw [run_call, ← Task.run_plan]
    exact ih
  | bind _ _ ihc ihf => exact ihc.bind ihf

theorem seq (hc : c.Within [] []) (hf : ∀ a, (f a).Within fs cs) : (c >>= f).Within fs cs :=
  .bind hc hf

theorem andThen (hc : c.Within fs cs) (hf : ∀ a, (f a).Within [] []) : (c >>= f).Within fs cs := by
  have h : (c.bind f).Within (fs ++ []) (cs ++ []) := .bind hc hf
  rwa [List.append_nil, List.append_nil] at h

theorem look {x : LowerM α} (h : ∀ s a s', Runs x s a s' → s' = s) (hd : Discerns x := by simp) :
    (Plan.act x).Within [] [] := by
  refine .act (fun s a s' hrun => ?_) hd
  obtain rfl := h s a s' hrun
  exact .refl s'

theorem pure (a : α) : (Pure.pure a : Plan α).Within [] [] :=
  look fun _ _ _ h => (Runs.pure_iff.1 h).2

theorem throw {e : Fault} (he : e.TellsApart) : (Plan.act (MonadExcept.throw e) : Plan α).Within [] [] :=
  look (fun _ _ _ h => by simp at h) (.throw he)

theorem except {x : Except Fault α} (hx : Sincere x) : (liftM x : Plan α).Within [] [] :=
  look (fun _ _ _ h => (Runs.lift_except_lower_iff.1 h).2) (.lift_except_lower hx)

theorem each {f : α → Plan Unit} {ids : α → List FunctionId} (hf : ∀ a, (f a).Within (ids a) [])
    (as : List α) : (Plan.each f as).Within (as.flatMap ids) [] := by
  induction as with
  | nil => exact .pure ()
  | cons a as ih =>
    rw [List.flatMap_cons]
    exact .bind (hf a) fun _ => ih

theorem lift {x : BuildM α} (h : ∀ ⦃s : State⦄ ⦃a : α⦄ ⦃t : Builder⦄, Runs x s.toBuilder a t →
    Proceeds [] [] s { s with toBuilder := t }) (hd : Discerns x := by simp) :
    (liftM x : Plan α).Within [] [] := by
  refine .act (fun s a s' hrun => ?_) hd.lift_build
  obtain ⟨t, ht, rfl⟩ := Runs.lift_build_iff.1 hrun
  exact h ht

theorem edits {b : BlockId} {x : BuildM α} (hx : Edits b x) (hd : Discerns x := by simp) :
    (liftM x : Plan α).Within [] [] :=
  .lift (fun _ _ _ h => .of_edits hx h) hd

theorem returnLayout {t : ValueType} : (liftM (returnLayout t) : Plan LayoutId).Within [] [] := by
  refine .act (fun s l s' hrun => .of_rebuilds (settles_returnLayout hrun)
    (.of_block? fun b => ?_) fun hs => ?_) (by simp)
  · obtain ⟨t, ht, rfl⟩ := settles_returnLayout hrun
    cases hb : s.graph.block? b with
    | some B => exact ht.keeps b B (by simp) hb
    | none =>
      by_contra hsome
      obtain ⟨x, hx, -⟩ := ht.reach b hb hsome
      simp at hx
  · obtain ⟨t, ht, rfl⟩ := Runs.lift_build_iff.1 hrun
    exact hs.asks .returnLayout ht

theorem branch (b : BlockId) :
    (Plan.act do Builder.branch b (← lastRegister b)).Within [] [] := by
  refine .act (fun s p s' hrun => ?_) (by simp)
  simp only [Runs.bind_iff, Runs.lift_build_iff] at hrun
  obtain ⟨r, _, ⟨t, hlast, rfl⟩, t', hbranch, rfl⟩ := hrun
  exact .branch hlast hbranch

end Plan.Within

/-! Types. -/

mutual

theorem within_type : (t : SourceType) → (Plan.call (.type t)).Within [] []
  | .prim _ => .call (.type _) (.pure _)
  | .object _ => .call (.type _) (.seq (.look fun _ _ _ h => (runs_classLayout.1 h).2) fun _ => .pure _)
  | .array element => .call (.type _) (.seq (within_type element) fun _ => .pure _)
  | .function result parameters =>
    .call (.type _) (.seq (within_type result) fun _ => .seq .returnLayout fun _ =>
      .seq (within_types parameters) fun _ => .pure _)

theorem within_types : (ts : List SourceType) → (Plan.call (.types ts)).Within [] []
  | [] => .call (.types _) (.pure _)
  | t :: ts => .call (.types _) (.seq (within_type t) fun _ => .seq (within_types ts) fun _ => .pure _)

end

/-! Expressions. -/

variable {b : BlockId}

theorem within_linear {op : LinearOp} {t : SourceType} : (linearPlan b op t).Within [] [] := by
  refine .seq (.edits (.popMany _)) fun rs => .seq (within_type t) fun type =>
    .act (fun s a s' h => ?_) (.bind (.lift_except_lower sincere_linear) fun _ => by simp)
  simp only [Runs.bind_iff, Runs.lift_except_lower_iff, Runs.lift_build_iff, Runs.pure_iff] at h
  obtain ⟨o, _, ⟨ho, rfl⟩, r, _, ⟨t, hemit, rfl⟩, -, rfl⟩ := h
  exact .of_edits (.emit _ (linear_isPlain ho)) hemit

/-! Calls. -/

section Calls

variable {k : Call} {p : Packing} {layout : LayoutId} {r callee : Register} {args : List Register}
  {returns : LayoutId} {result : ValueType}

theorem Call.Suspends.maintains {s s' : Builder} (h : k.Suspends b p s s')
    (hp : k.Packs layout s.graph.nextId p) (hB : s.graph.block? b = some k.caller) :
    s.graph.Maintains s'.graph := by
  refine ⟨fun hs d D hD => ?_, fun d D hD => ?_⟩
  all_goals by_cases hdb : d = b
  · subst hdb
    obtain ⟨t, ht⟩ := hs d _ hB
    obtain rfl := Option.some.inj (h.caller.symm.trans hD)
    have hsuspend : k.caller.Extends (k.suspended p) :=
      (Block.Extends.pushAll h.open_ p.code).trans
        (.close ((k.caller.pushAll_isTerminated p.code).trans h.open_) _)
    exact ⟨t, ht.mono hsuspend rfl⟩
  · by_cases hdn : d = s.graph.nextId
    · subst hdn
      obtain ⟨t, ht⟩ := hs b _ hB
      obtain rfl := Option.some.inj (h.resumed.symm.trans hD)
      exact ⟨t, hp.hasSlot ht⟩
    · exact hs d D ((h.others d hdb hdn).symm.trans hD)
  · subst hdb
    obtain rfl := Option.some.inj (hB.symm.trans hD)
    exact ⟨_, h.caller, List.Subset.refl _⟩
  · have hdn : d ≠ s.graph.nextId := by
      rintro rfl
      simp [Graph.block?_nextId] at hD
    exact ⟨D, (h.others d hdb hdn).trans hD, List.Subset.refl _⟩

theorem maintains_packContext_nil {s s₁ s' : Builder} {c : BlockId} {B : Block}
    (hs : s.graph.Maintains s₁.graph) (hc : s.graph.block? c = none)
    (hB : s₁.graph.block? b = some B) (hlive : B.locals.liveRegisters = [])
    (h : Runs (packContext b c returns) s₁ r s') : s.graph.Maintains s'.graph := by
  simp only [packContext, Runs.bind_iff, runs_locals] at h
  obtain ⟨_, _, ⟨B', hB', rfl, rfl⟩, h⟩ := h
  obtain rfl := Option.some.inj (hB.symm.trans hB')
  rw [hlive] at h
  simp only [storeContinuation, Runs.bind_iff, Runs.pure_iff] at h
  obtain ⟨object, t₁, hnew, _, t₃, ⟨target, t₂, href, _, _, hstore, -, rfl⟩, _, _, hset, -, rfl⟩ := h
  have ht₃ := ((hs.trans (stays_emit rfl hnew).maintains).trans (maintains_emitRef href)).trans
    (stays_emit rfl hstore).maintains
  obtain ⟨⟨C, hC⟩, rfl⟩ := runs_setLocals.1 hset
  have hslot : B.locals.returnSlot = none := by
    cases hr : B.locals.returnSlot with
    | none => rfl
    | some r => simp [Locals.liveRegisters, hr] at hlive
  exact maintains_relocate (v := none) ht₃ hc hC (by simp [Block.HasSlot, hslot, Block.HasTypes])

theorem proceeds_suspend {s s' : State} {c : BlockId}
    (h : Runs (suspend b args callee returns result) s c s') : Proceeds [] [] s s' := by
  simp only [suspend, Runs.bind_iff, Runs.lift_build_iff, Runs.ite_iff, Runs.pure_iff] at h
  obtain ⟨new, _, ⟨t₁, hadd, rfl⟩, context, _, ⟨t₂, hpack, rfl⟩, _, _, ⟨t₃, hgoto, rfl⟩, last, _,
    ⟨t₄, hlast, rfl⟩, h⟩ := h
  dsimp only at hpack hgoto hlast h
  obtain ⟨-, -, -, rfl⟩ := runs_lastRegister.1 hlast
  have hcall := moves_callJump hadd hpack hgoto
  have hasks (hs : Session s.classes s.toBuilder) : Session s.classes t₄ :=
    ((hs.asks .addBlock hadd).asks asks_packContext hpack).asks .goto hgoto
  obtain ⟨rfl, rfl⟩ := runs_addBlock.1 hadd
  by_cases hne : s.graph.nextId = b
  · -- the block is not there yet, so nothing is live in it
    have hlocals : s.graph.Maintains t₄.graph :=
      (maintains_packContext_nil (maintains_addBlock hadd) (Graph.block?_nextId _)
        (by rw [appendBlock_block?, if_pos hne.symm]) rfl hpack).trans (maintains_goto hgoto)
    rcases h with ⟨-, _, _, ⟨t₅, hcopy, rfl⟩, rfl, rfl⟩ | ⟨-, rfl, rfl⟩
    · exact (Proceeds.of_moves hcall hlocals hasks).trans (.of_edits (.copy _) hcopy)
    · exact .of_moves hcall hlocals hasks
  · obtain ⟨B, hB⟩ : ∃ B, s.graph.block? b = some B := by
      simp only [packContext, Runs.bind_iff, runs_locals] at hpack
      obtain ⟨_, _, ⟨B, hB, -⟩, -⟩ := hpack
      exact ⟨B, by rwa [appendBlock_block?, if_neg (Ne.symm hne)] at hB⟩
    obtain ⟨hopen, p, hp, rfl, hprep⟩ := prepares_of_packContext
      (k := ⟨B, callee, args, returns, result⟩)
      (by rw [appendBlock_block?, if_neg (Ne.symm hne)]; exact hB)
      (by rw [appendBlock_block?, if_pos rfl]; rfl) hne hpack
    rcases h with ⟨hc, r', _, ⟨t₅, hcopy, rfl⟩, rfl, rfl⟩ | ⟨hc, rfl, rfl⟩
    · have hsuspend := suspends_of_prepares hopen hne hprep hgoto hlast (.inl ⟨hc, r', hcopy⟩)
      exact .of_moves (hcall.trans (stays_copy hcopy).toMoves) (hsuspend.maintains hp hB) fun hs =>
        (hasks hs).asks .copy hcopy
    · have hsuspend := suspends_of_prepares hopen hne hprep hgoto hlast
        (.inr ⟨by simpa using hc, rfl⟩)
      exact .of_moves hcall (hsuspend.maintains hp hB) hasks

theorem discerns_suspend : Discerns (suspend b args callee returns result) :=
  .bind (by simp) fun _ => .bind (by simp) fun _ => .bind (by simp) fun _ => .bind (by simp) fun _ =>
    .ite (fun _ => by simp) fun _ => .pure

theorem within_suspend :
    (liftM (suspend b args callee returns result) : Plan BlockId).Within [] [] :=
  .act (fun _ _ _ h => proceeds_suspend h) discerns_suspend

theorem within_call {n : Nat} {t : SourceType} : (Plan.call (.call b n t)).Within [] [] :=
  .call (.call b n t) (.seq (.edits (.popMany _)) fun _ => .seq (.edits .pop) fun _ =>
    .seq (.edits (b := b) .typeOf) fun _ => .seq (.except sincere_returnsThrough) fun _ =>
    .seq (within_type t) fun _ => within_suspend)

end Calls

theorem within_converge {preds : List BlockId} :
    (liftM (converge b preds) : Plan BlockId).Within [] [] :=
  .lift fun _ _ _ h => .converge h

theorem within_pushLast : (liftM (pushLast b) : Plan Unit).Within [] [] := .edits .pushLast

theorem within_lastRegister : (liftM (lastRegister b) : Plan Register).Within [] [] :=
  .edits (b := b) .lastRegister

theorem within_copied {r : Register} : (Plan.act do
    let _ ← copy b r
    return b).Within [] [] := by
  refine .act (fun s c s' h => ?_) (by simp)
  simp only [Runs.bind_iff, Runs.lift_build_iff, Runs.pure_iff] at h
  obtain ⟨_, _, ⟨t, hcopy, rfl⟩, -, rfl⟩ := h
  exact .of_edits (.copy r) hcopy

mutual

theorem within_expr (b : BlockId) : (e : Expr) → (Plan.call (.expr b e)).Within [] []
  | .literal value type =>
    .call (.expr b (.literal value type)) (.seq (within_type type) fun _ =>
      .seq (.edits (.emit _ rfl)) fun _ => .pure _)
  | .var name type =>
    .call (.expr b (.var name type)) (.seq (.edits (b := b) edits_readSymbol) fun _ =>
      .seq (.edits (.copy _)) fun _ => .pure _)
  | .function f type =>
    .call (.expr b (.function f type)) (.act (fun s c s' h => by
      simp only [Runs.bind_iff, runs_functionEntry, Runs.lift_build_iff, Runs.pure_iff] at h
      obtain ⟨e, _, ⟨-, rfl⟩, r, _, ⟨t, href, rfl⟩, -, rfl⟩ := h
      exact .of_moves (moves_emitRef href) (maintains_emitRef href) fun hs => hs.asks .emitRef href)
      (discerns_functionEntry.bind fun _ => by simp))
  | .unary op operand type =>
    .call (.expr b (.unary op operand type)) (.seq (within_expr b operand) fun _ =>
      .seq within_pushLast fun _ => .seq within_linear fun _ => .pure _)
  | .binary op left right type =>
    .call (.expr b (.binary op left right type)) (.seq (within_expr b left) fun c =>
      .seq within_pushLast fun _ => .seq (within_expr c right) fun _ =>
      .seq within_pushLast fun _ => .seq within_linear fun _ => .pure _)
  | .logic op left right type => .call (.expr b (.logic op left right type)) (.throw trivial)
  | .cast op operand type =>
    .call (.expr b (.cast op operand type)) (.seq (.except sincere_expectValueCast) fun _ =>
      .seq (within_expr b operand) fun _ => .seq within_lastRegister fun _ =>
      .seq (within_type type) fun _ => .seq (.edits (.emit _ rfl)) fun _ => .pure _)
  | .field object index type =>
    .call (.expr b (.field object index type)) (.seq (within_expr b object) fun c =>
      .seq within_lastRegister fun _ => .seq (.edits (b := c) edits_expectObject) fun _ =>
      .seq (within_type type) fun _ => .seq (.edits (.emit _ rfl)) fun _ => .pure _)
  | .assign target value type =>
    .call (.expr b (.assign target value type)) (.seq (within_address b target) fun (c, place) =>
      .seq (within_expr c value) fun _ => .seq within_lastRegister fun _ =>
      .seq (.edits edits_store) fun _ => by
        cases place with
        | var name => exact .pure _
        | field index => exact within_copied
        | element => exact within_copied)
  | .compound op target value type =>
    .call (.expr b (.compound op target value type)) (.seq (within_type type) fun _ =>
      .seq (within_address b target) fun (c, place) => .seq (.edits edits_load) fun _ =>
      .seq within_pushLast fun _ => .seq (within_expr c value) fun _ =>
      .seq within_pushLast fun _ => .seq (.edits edits_update) fun _ => .pure _)
  | .step op target type =>
    .call (.expr b (.step op target type)) (.seq (within_type type) fun _ =>
      .seq (within_address b target) fun (c, place) => .seq (.edits edits_load) fun _ =>
      .seq within_pushLast fun _ => .seq (.edits edits_emitOne) fun _ =>
      .seq within_pushLast fun _ => .seq (.edits edits_update) fun _ => .pure _)
  | .conditional condition first second type =>
    .call (.expr b (.conditional condition first second type)) (.seq (within_expr b condition) fun c =>
      .seq (.branch c) fun (onTrue, onFalse) => .seq (within_expr onTrue first) fun _ =>
      .seq within_pushLast fun _ => .seq (within_expr onFalse second) fun _ =>
      .seq within_pushLast fun _ => .seq within_converge fun _ => .seq (.edits .pop) fun _ =>
      .seq (.edits (.copy _)) fun _ => .pure _)
  | .call callee arguments type =>
    .call (.expr b (.call callee arguments type)) (.seq (within_expr b callee) fun c =>
      .seq within_pushLast fun _ => .seq (within_operands c arguments) fun _ => within_call)
  | .new k arguments type =>
    .call (.expr b (.new k arguments type)) (.seq (.look fun _ _ _ h => (constructed_inv h).2) fun _ =>
      .seq (within_operands b arguments) fun _ => .seq (.edits edits_construct) fun _ =>
      .pure _)
  | .newArray length type =>
    .call (.expr b (.newArray length type)) (.seq (within_expr b length) fun _ =>
      .seq within_lastRegister fun _ => .seq (within_type type) fun _ =>
      .seq (.edits (.emit _ rfl)) fun _ => .pure _)
  | .native name arguments type =>
    .call (.expr b (.native name arguments type)) (.seq (within_operands b arguments) fun _ =>
      .seq (.edits (.popMany _)) fun _ => .seq (within_type type) fun _ =>
      .seq (.edits (.emit _ rfl)) fun _ => .pure _)

theorem within_operands (b : BlockId) : (es : List Expr) → (Plan.call (.operands b es)).Within [] []
  | [] => .call (.operands b []) (.pure _)
  | e :: es =>
    .call (.operands b (e :: es)) (.seq (within_expr b e) fun c => .seq within_pushLast fun _ =>
      within_operands c es)

theorem within_address (b : BlockId) : (e : Expr) → (Plan.call (.address b e)).Within [] []
  | .var name type => .call (.address b (.var name type)) (.pure _)
  | .field object index type =>
    .call (.address b (.field object index type)) (.seq (within_expr b object) fun c =>
      .seq within_lastRegister fun _ => .seq (.edits (b := c) edits_expectObject) fun _ =>
      .seq within_pushLast fun _ => .pure _)
  | .binary .index array index type =>
    .call (.address b (.binary .index array index type)) (.seq (within_expr b array) fun c =>
      .seq within_pushLast fun _ => .seq (within_expr c index) fun _ => .seq within_pushLast fun _ =>
      .pure _)
  | .literal .. | .function .. | .unary .. | .logic .. | .cast .. | .assign .. | .compound ..
  | .step .. | .conditional .. | .call .. | .new .. | .newArray .. | .native ..
  | .binary (.compare _) .. | .binary (.numeric _) .. | .binary (.shift _) .. | .binary .concat ..
  | .binary .identity .. => .call (.address b _) (.throw trivial)

end

/-! Statements without statements inside. -/

theorem within_define {name : String} {x : Symbol} : (liftM (define b name x) : Plan Unit).Within [] [] :=
  .lift fun _ _ _ h => .of_moves (stays_define h).toMoves (stays_define h).maintains fun hs =>
    hs.asks .define h

theorem within_clauses {type : Option ValueType} {cs : List Clause} :
    (Plan.call (.clauses type b cs)).Within [] [] := by
  induction cs generalizing b with
  | nil => exact .call (.clauses type b []) (.pure _)
  | cons c rest ih =>
    have htype : (clauseTypePlan type c).Within [] [] := by
      unfold clauseTypePlan
      split
      · exact .pure _
      · exact within_type _
      · exact .throw trivial
    refine .call (.clauses type b (c :: rest)) ?_
    have hdefine (b : BlockId) (r : Option Register) : (do
        let t ← clauseTypePlan type c
        tell (.symbolDefined c.name t b)
        define b c.name ⟨t, r⟩
        Plan.call (.clauses type b rest)).Within [] [] :=
      .seq htype fun _ => .seq (.edits (b := b) (.look (by simp))) fun _ => .seq within_define fun _ => ih
    rw [Task.plan, clausesPlan]
    cases c.value with
    | none => exact Plan.Within.seq (.pure _) fun p => hdefine p.1 p.2
    | some value =>
      refine .seq (within_expr b value) fun d => .seq within_lastRegister fun r => ?_
      exact Plan.Within.seq (.pure _) fun p => hdefine p.1 p.2

theorem within_handBack {name : String} {r : Option Register} :
    (liftM (handBack name b r) : Plan Unit).Within [] [] := by
  refine .act (fun s u s' h => ?_) discerns_handBack
  have h : Runs (handBack name b r) s u s' := h
  have hback := rebuilds_handBack h
  obtain ⟨B, slot, type, target, t, t', -, -, hload, hgoto, rfl⟩ := handBack_cases h
  exact .of_rebuilds hback ((stays_emit rfl hload).maintains.trans (maintains_goto hgoto)) fun hs =>
    (hs.asks .emit hload).asks .goto hgoto

theorem within_return {frame : Option Frame} {value : Option Expr} :
    (returnPlan frame b value).Within [] [] := by
  cases frame with
  | none => exact .throw trivial
  | some frame =>
    have hvalue : (returnValuePlan frame.result b value).Within [] [] := by
      cases value with
      | none =>
        refine .look fun s a s' h => ?_
        simp only [Runs.ite_iff, Runs.bind_iff, Runs.throw_iff, Runs.pure_iff] at h
        rcases h with ⟨-, _, _, ⟨⟩, -⟩ | ⟨-, -, rfl⟩
        rfl
      | some value =>
        refine .seq (.look fun s a s' h => ?_) fun _ => .seq (within_expr b value) fun _ =>
          .seq within_lastRegister fun _ => .pure _
        simp only [Runs.ite_iff, Runs.throw_iff, Runs.pure_iff] at h
        rcases h with ⟨-, ⟨⟩⟩ | ⟨-, -, rfl⟩
        rfl
    refine .seq hvalue fun p => ?_
    obtain ⟨c, r⟩ := p
    exact within_handBack

/-! Declarations. -/

theorem within_fields (k : ClassDecl) : (Plan.call (.fields k)).Within [] [] := by
  refine .call (.fields k) (.seq (within_types _) fun fields => .act (fun s u s' h => ?_)
    (discerns_classLayout.bind fun _ => by simp))
  simp only [Runs.bind_iff, runs_classLayout, Runs.lift_build_iff] at h
  obtain ⟨l, s, ⟨hl, rfl⟩, t, hdefine, rfl⟩ := h
  have hsession (hs : Session s.classes s.toBuilder) : Session s.classes t := by
    refine hs.request (q := .act (.defineClass l fields)) hdefine ?_
    rintro k ⟨fields', hk⟩
    obtain ⟨rfl, -⟩ : l = k ∧ fields = fields' := by simpa using hk
    exact ⟨_, hl⟩
  obtain ⟨⟨L, hL⟩, rfl⟩ := runs_defineClass.1 hdefine
  have hstep : Step s.toBuilder (s.toBuilder.setFields l fields) := .setFields l fields
  refine ⟨hstep.graph_extends, .of_block? fun _ => rfl, fun _ _ h => h, fun _ _ => rfl, fun _ _ => rfl,
    fun hs => ?_, List.Subset.refl _⟩
  refine ⟨⟨hs.entry, hs.entry_inj, fun n l' hl' => ?_, hs.layout_inj⟩, fun t l' hl' => ?_, hs.slots,
    hstep.checked hs.checked, hstep.copiesTyped hs.copies, hsession hs.session⟩
  · obtain ⟨L', name, hL', horigin⟩ := hs.layout n l' hl'
    exact ⟨_, name, by simp [setFields_layout?, hL']; rfl, by split <;> exact horigin⟩
  · -- a layout to return through is not one of a class
    have hL' := hs.returning t l' hl'
    have hne : l' ≠ l := by
      rintro rfl
      obtain ⟨L'', name, hL'', horigin⟩ := hs.layout _ _ hl
      rw [Option.some.inj (hL''.symm.trans hL')] at horigin
      cases horigin
    simp [setFields_layout?, hL', hne]

theorem maintains_entry {s s₁ s₂ s₃ : Builder} {c : BlockId} {l : LayoutId} {ps : List Parameter} {u : Unit}
    (hadd : Runs (addBlock (⟨.object l, none⟩ :: ps)) s c s₁)
    (hset : Runs (setLocals c { returnSlot := some ⟨0⟩ }) s₁ u s₂)
    (hdefine : Runs (defineParameters c 1 ps) s₂ u s₃) : s.graph.Maintains s₃.graph := by
  refine .trans ?_ (stays_defineParameters hdefine).maintains
  have hs₁ := maintains_addBlock hadd
  obtain ⟨rfl, rfl⟩ := runs_addBlock.1 hadd
  obtain ⟨-, rfl⟩ := runs_setLocals.1 hset
  exact maintains_relocate (v := some (.object l)) hs₁ (Graph.block?_nextId _)
    (by rw [appendBlock_block?, if_pos rfl]) (.cons rfl .nil)

theorem within_entry (f : FunctionDecl) : (Plan.call (.entry f)).Within [f.id] [] := by
  refine .call (.entry f) (.seq (within_type _) fun _ => .seq .returnLayout fun l =>
    .seq (within_types _) fun types => .act (fun s u s' h => ?_) (.bind (by simp) fun _ =>
      .bind (by simp) fun _ => .bind (by simp) fun _ => .bind (by simp) fun _ => by simp))
  simp only [Runs.bind_iff, Runs.lift_build_iff, runs_tell, Runs.modify_iff] at h
  obtain ⟨entry, _, ⟨t₁, hadd, rfl⟩, _, _, ⟨t₂, hset, rfl⟩, _, _, ⟨_, hdefine, rfl⟩, _, _, ⟨t₃, rfl, rfl⟩,
    rfl⟩ := h
  dsimp only at hset hdefine
  have hmove : Moves [entry] [] s.toBuilder [entry] t₃ :=
    ((moves_addBlock hadd).trans (moves_setLocals hset)).trans
      (stays_defineParameters hdefine).toMoves
  exact .of_shifts (.insert hmove f.id rfl) (maintains_entry hadd hset hdefine) fun hs =>
    ((hs.asks .addBlock hadd).asks .setLocals hset).asks asks_defineParameters hdefine

theorem declares_keep {ks : List ClassDecl} {s s' : State} {u : PUnit}
    (h : Runs (ks.forM declare) s u s') : s.graph.Maintains s'.graph ∧ s.Continues s' := by
  induction ks generalizing s with
  | nil =>
    obtain rfl := Runs.forM_nil.1 h
    exact ⟨.refl _, id⟩
  | cons k ks ih =>
    obtain ⟨t, hk, hks⟩ := Runs.forM_cons.1 h
    obtain ⟨hlocals, hsession⟩ := ih hks
    refine ⟨?_, fun hs => hsession (continues_declare hk hs)⟩
    obtain rfl := runs_declare.1 hk
    have hlayout : s.graph.Maintains (s.appendLayout ⟨[], .ofClass k.name⟩).graph :=
      .of_block? fun _ => rfl
    exact hlayout.trans hlocals

theorem within_declares (ks : List ClassDecl) :
    (Plan.act (ks.forM declare)).Within [] (ks.map (·.id)) :=
  .act (fun _ _ _ h => .of_shifts (shifts_declares h).1 (declares_keep h).1 (declares_keep h).2)
    (.forM fun _ => discerns_declare)

/-! Statements. -/

theorem within_jump {c : BlockId} : (liftM (jump b c) : Plan Unit).Within [] [] :=
  .lift fun _ _ _ h => .jump h

theorem within_enter : (liftM (enter b) : Plan BlockId).Within [] [] :=
  .lift fun _ _ _ h => .converge (runs_enter.1 h)

theorem within_leave {c : BlockId} : (liftM (leave b c) : Plan BlockId).Within [] [] :=
  .lift fun _ _ _ h => .converge (runs_leave.1 h)

theorem within_modifyLoops (ls : State → List LoopFrame) :
    (Plan.act (modify fun s => { s with loops := ls s })).Within [] [] := by
  refine .act (fun s u s' h => ?_) .modify
  obtain rfl := Runs.modify_iff.1 h
  exact .withLoops s _

theorem proceeds_exitLoop {leaving : List BlockId} {o : Option BlockId} {s : State} {t : Builder}
    (h : Runs (exitLoop b leaving) s.toBuilder o t) : Proceeds [] [] s { s with toBuilder := t } := by
  rcases joins_exitLoop h with ⟨-, -, hsame⟩ | ⟨-, c, t', hconverge, -, hsame⟩ <;> rw [hsame]
  · exact .refl s
  · exact .converge hconverge

theorem within_close {inside : BlockId} {condition : Expr} {leaving repeating : List BlockId} :
    (closePlan b inside condition leaving repeating).Within [] [] := by
  unfold closePlan
  split
  · refine .act (fun s o s' h => ?_) (.ite (fun _ => .bind (by simp) fun _ => by simp) fun _ => by simp)
    simp only [Runs.ite_iff, Runs.bind_iff, Runs.lift_build_iff, runs_report] at h
    rcases h with ⟨-, -, _, ⟨_, rfl, rfl⟩, t, hexit, rfl⟩ | ⟨-, t, hexit, rfl⟩
    · exact (Proceeds.report s _).trans (proceeds_exitLoop hexit)
    · exact proceeds_exitLoop hexit
  · split
    · refine .act (fun s o s' h => ?_) (.bind (by simp) fun _ => .bind (by simp) fun _ => by simp)
      simp only [Runs.bind_iff, Runs.lift_build_iff] at h
      obtain ⟨c, _, ⟨t, hconverge, rfl⟩, _, _, ⟨t', hjump, rfl⟩, t'', hexit, rfl⟩ := h
      exact ((Proceeds.converge hconverge).trans (.jump (s := { s with toBuilder := t }) hjump)).trans
        (proceeds_exitLoop hexit)
    · refine .seq within_converge fun c => .seq (within_expr c condition) fun tested =>
        .seq (.act (fun s p s' h => ?_) (.bind (by simp) fun _ => by simp)) fun (again, exit) =>
          .seq within_jump fun _ => .pure _
      simp only [Runs.bind_iff, Runs.lift_build_iff] at h
      obtain ⟨r, _, ⟨_, hlast, rfl⟩, t, hbranch, rfl⟩ := h
      obtain ⟨B, hB, hr, rfl⟩ := runs_lastRegister.1 hlast
      exact .of_moves (moves_convergeBranch hbranch hB (Block.contains_of_lastRegister? hr))
        (maintains_convergeBranch hbranch) fun hs => hs.asks .convergeBranch hbranch

mutual

theorem within_scope (frame : Option Frame) (b : BlockId) : (S : Scope) →
    (Plan.call (.scope frame b S)).Within (functionIds S.scopes) (classIds S.scopes)
  | ⟨classes, functions, statements⟩ => by
    refine .call (.scope frame b ⟨classes, functions, statements⟩) ?_
    have hplan := Plan.Within.bind (within_declares classes) fun _ =>
      .bind (.each within_entry functions) fun _ =>
      .bind (.each within_fields classes) fun _ =>
      .bind (within_functions functions) fun _ => within_stmts frame b statements
    have hnil : classes.flatMap (fun _ => ([] : List FunctionId)) = [] := by simp
    simp only [← List.map_eq_flatMap, hnil, List.nil_append] at hplan
    simp only [Task.declares, Task.scopes, Scope.scopes, functionIds_cons, functionIds_append,
      classIds_cons, classIds_append]
    exact hplan

theorem within_functions : (ds : List FunctionDecl) →
    (Plan.call (.functions ds)).Within (functionIds (functionScopes ds)) (classIds (functionScopes ds))
  | [] => .call (.functions []) (.pure _)
  | d :: ds => by
    refine .call (.functions (d :: ds)) ?_
    simp only [Task.declares, Task.scopes, functionScopes, functionIds_append, classIds_append]
    exact .bind (within_function d) fun _ => within_functions ds

theorem within_function : (d : FunctionDecl) →
    (Plan.call (.function d)).Within (functionIds d.scopes) (classIds d.scopes)
  | ⟨id, name, result, parameters, body⟩ => by
    refine .call (.function ⟨id, name, result, parameters, body⟩) ?_
    refine .seq (.look fun _ _ _ h => (runs_functionEntry.1 h).2) fun e => .seq (within_type result) fun type =>
      .seq (.look fun _ _ _ h => (Runs.get_iff.1 h).2) fun s => .seq (within_modifyLoops _) fun _ =>
      .andThen (within_scope (some ⟨name, type⟩) e.entry body) fun o => ?_
    cases o with
    | none => exact within_modifyLoops _
    | some c =>
      have hreturn : (returnPlan (some ⟨name, type⟩) c none).Within [] [] := within_return
      refine .seq (.act (fun s u s' h => ?_) (.ite (fun _ => ?_) fun _ => .throw trivial)) fun _ =>
        within_modifyLoops _
      · simp only [Runs.ite_iff, Runs.throw_iff, and_false, or_false] at h
        rw [← run_returnPlan] at h
        exact hreturn.proceeds h.2
      · rw [← run_returnPlan]
        exact hreturn.discerns

theorem within_stmts (frame : Option Frame) (b : BlockId) : (ss : List Stmt) →
    (Plan.call (.stmts frame b ss)).Within (functionIds (stmtScopes ss)) (classIds (stmtScopes ss))
  | [] => .call (.stmts frame b []) (.pure _)
  | S :: rest => by
    refine .call (.stmts frame b (S :: rest)) ?_
    simp only [Task.declares, Task.scopes, stmtScopes, functionIds_append, classIds_append]
    refine .bind (within_stmt frame b S) fun o => ?_
    cases o with
    | some c => exact within_stmts frame c rest
    | none =>
      refine .act (fun s o s' h => ?_) (.ite (fun _ => .bind (by simp) fun _ => .pure) fun _ => .pure)
      simp only [Runs.ite_iff, Runs.bind_iff, Runs.lift_build_iff, runs_report, Runs.pure_iff] at h
      rcases h with ⟨-, _, _, ⟨_, rfl, rfl⟩, -, rfl⟩ | ⟨-, -, rfl⟩
      · exact (Proceeds.report _ _).mono (by simp) (by simp)
      · exact (Proceeds.refl _).mono (by simp) (by simp)

theorem within_stmt (frame : Option Frame) (b : BlockId) : (S : Stmt) →
    (Plan.call (.stmt frame b S)).Within (functionIds S.scopes) (classIds S.scopes)
  | .scope body => by
    refine .call (.stmt frame b (.scope body)) ?_
    simp only [Task.declares, Task.scopes, Stmt.scopes]
    refine .seq within_enter fun c => .andThen (within_scope frame c body) fun o => ?_
    cases o with
    | some inner => exact .seq within_leave fun _ => .pure _
    | none => exact .pure _
  | .jump kind label => by
    refine .call (.stmt frame b (.jump kind label)) (.act (fun s o s' h => ?_) (by simp))
    simp only [Runs.bind_iff, Runs.pure_iff] at h
    obtain ⟨_, _, hjump, -, rfl⟩ := h
    obtain ⟨inner, f, outer, -, -, -, h⟩ := runs_lowerJump.1 hjump
    split at h
    · obtain ⟨t, ht, rfl⟩ := h
      exact .jump ht
    · rw [h]
      exact .withLoops s _
  | .define type clauses => by
    refine .call (.stmt frame b (.define type clauses)) ?_
    cases type with
    | none => exact .seq (.pure _) fun _ => .seq within_clauses fun _ => .pure _
    | some type =>
      exact .seq (within_type type) fun _ => .seq (.pure _) fun _ => .seq within_clauses fun _ => .pure _
  | .loop kind label condition body => by
    refine .call (.stmt frame b (.loop kind label condition body)) ?_
    simp only [Task.declares, Task.scopes, Stmt.scopes, Task.plan, stmtPlan]
    split
    · refine .seq within_enter fun test => .seq (within_expr test condition) fun tested =>
        .seq (.branch tested) fun (inside, exit) => .seq (within_modifyLoops _) fun _ =>
        .andThen (within_scope frame inside body) fun bottom => .seq (within_modifyLoops _) fun _ =>
        .seq ?_ fun _ => .pure _
      cases bottom with
      | none => exact .pure _
      | some c => exact within_jump
    · refine .seq within_enter fun inside => .seq (within_modifyLoops _) fun _ =>
        .andThen (within_scope frame inside body) fun bottom =>
        .seq (.act (fun s q s' h => ?_) discerns_popQueued) fun (leaving, repeating) => within_close
      obtain ⟨label, ls, -, rfl⟩ := runs_popQueued.1 h
      exact .withLoops s ls
  | .expr value => .call (.stmt frame b (.expr value)) (.seq (within_expr b value) fun _ => .pure _)
  | .cond condition first second => by
    refine .call (.stmt frame b (.cond condition first second)) ?_
    simp only [Task.declares, Task.scopes, Stmt.scopes, functionIds_append, classIds_append]
    refine .seq (within_expr b condition) fun c => .seq (.branch c) fun (onTrue, onFalse) =>
      .bind (within_arm frame onTrue first) fun o => .andThen (within_arm frame onFalse second)
      fun o' => ?_
    cases o with
    | none =>
      cases o' with
      | none => exact .pure _
      | some inner => exact .seq within_leave fun _ => .pure _
    | some inner =>
      cases o' with
      | none => exact .seq within_leave fun _ => .pure _
      | some inner' => exact .seq within_converge fun _ => .pure _
  | .ret value => .call (.stmt frame b (.ret value)) (.seq within_return fun _ => .pure _)

theorem within_arm (frame : Option Frame) (b : BlockId) : (S : Option Scope) →
    (Plan.call (.arm frame b S)).Within (functionIds (armScopes S)) (classIds (armScopes S))
  | some body => .call (.arm frame b (some body)) (within_scope frame b body)
  | none => .call (.arm frame b none) (.pure _)

end

theorem within_program (p : Program) :
    (Plan.call (.program p)).Within (functionIds p.body.scopes) (classIds p.body.scopes) := by
  refine .call (.program p) (.seq .returnLayout fun _ =>
    .seq (.lift fun _ _ _ h => .of_moves (moves_addBlock h) (maintains_addBlock h) fun hs =>
      hs.asks .addBlock h) fun entry =>
    .andThen (within_scope none entry p.body) fun o => ?_)
  have hend : (Plan.act do
      let g := (← get).graph
      tell (.lowered g.blocks.length g.layouts.length)
      return entry : Plan BlockId).Within [] [] := by
    refine .look (fun s e s' h => ?_) (Discerns.get.bind fun _ => by simp)
    simp only [Runs.bind_iff, Runs.get_iff, Runs.lift_build_iff, runs_tell, Runs.pure_iff] at h
    obtain ⟨_, _, ⟨rfl, rfl⟩, _, _, ⟨_, rfl, rfl⟩, -, rfl⟩ := h
    rfl
  cases o with
  | none => exact hend
  | some b =>
    refine .seq (.act (fun s u s' h => ?_) (by simp)) fun _ => hend
    obtain ⟨t, hfinish, rfl⟩ := Runs.lift_build_iff.1 h
    have hext := finish_extends hfinish
    have hlocals := maintains_finish hfinish
    have hasks (hs : Session s.classes s.toBuilder) := hs.asks .finish hfinish
    obtain ⟨B, hB, hopen, rfl⟩ := runs_finish.1 hfinish
    refine .of_builder hext (fun _ _ h => h) (fun _ _ h => h) (fun h => h) hlocals (fun hs => ?_)
      (fun hs c C hC => ?_) hasks (List.Subset.refl _)
    · refine hs.modifyBlock hext fun B' hB' h => ⟨rfl, h.operands, h.references, h.leaves, fun _ => ?_⟩
      obtain rfl := Option.some.inj (hB.symm.trans hB')
      simpa [Block.isTerminated] using And.left (by simpa [Block.isTerminated] using hopen)
    · rw [updateBlock_block?] at hC
      split at hC
      · obtain ⟨B', hB', rfl⟩ := Option.map_eq_some_iff.1 hC
        exact hs c B' hB'
      · exact hs c C hC

theorem Visits.within {α β : Type} {c : Plan α} {d : Plan β} {s t : State} {fs : List FunctionId}
    {cs : List ClassId} (h : Visits c s d t) (hc : c.Within fs cs) :
    ∃ fs₁ cs₁ fs₂ cs₂, Proceeds fs₁ cs₁ s t ∧ d.Within fs₂ cs₂ ∧ (fs₁ ++ fs₂).Sublist fs ∧
      (cs₁ ++ cs₂).Sublist cs := by
  induction h generalizing fs cs with
  | refl => exact ⟨[], [], fs, cs, .refl _, hc, List.Sublist.refl _, List.Sublist.refl _⟩
  | enter _ ih =>
    cases hc with
    | call _ hplan => exact ih hplan
  | first _ ih =>
    cases hc with
    | bind hc _ =>
      obtain ⟨fs₁, cs₁, fs₂, cs₂, hs, hd, hf, hk⟩ := ih hc
      exact ⟨fs₁, cs₁, fs₂, cs₂, hs, hd, hf.trans (List.sublist_append_left ..),
        hk.trans (List.sublist_append_left ..)⟩
  | after hrun _ ih =>
    cases hc with
    | bind hc hrest =>
      obtain ⟨fs₁, cs₁, fs₂, cs₂, hs, hd, hf, hk⟩ := ih (hrest _)
      refine ⟨_, _, fs₂, cs₂, (hc.proceeds hrun).trans hs, hd, ?_, ?_⟩
      · rw [List.append_assoc]
        exact hf.append_left _
      · rw [List.append_assoc]
        exact hk.append_left _

theorem sound_of_visits {p : Program} {α : Type} {d : Plan α} {s : State}
    (h : Visits (.call (.program p)) {} d s) : s.Sound := by
  obtain ⟨_, _, _, _, hproceeds, -⟩ := h.within (within_program p)
  exact hproceeds.sound State.sound_empty

theorem Visits.proceeds_end {α β : Type} {c : Plan α} {d : Plan β} {s t u v : State} {a : α} {r : β}
    {fs : List FunctionId} {cs : List ClassId} (h : Visits c s d t) (hc : c.Within fs cs)
    (hd : Runs d.run t r v) (hrun : Runs c.run s a u) : ∃ fs' cs', Proceeds fs' cs' v u := by
  induction h generalizing u fs cs with
  | refl =>
    obtain ⟨-, rfl⟩ := hd.unique hrun
    exact ⟨[], [], .refl v⟩
  | enter _ ih =>
    rw [Plan.run_call, ← Task.run_plan] at hrun
    cases hc with
    | call _ hplan => exact ih hplan hd hrun
  | first _ ih =>
    obtain ⟨a', u', hfirst, hrest⟩ := Runs.bind_iff.1 hrun
    cases hc with
    | bind hc hf =>
      obtain ⟨fs', cs', h⟩ := ih hc hd hfirst
      exact ⟨_, _, h.trans ((hf a').proceeds hrest)⟩
  | after hbefore _ ih =>
    obtain ⟨a', u', hfirst, hrest⟩ := Runs.bind_iff.1 hrun
    obtain ⟨rfl, rfl⟩ := hbefore.unique hfirst
    cases hc with
    | bind _ hf => exact ih (hf _) hd hrest

end BlockGraph.Lowering

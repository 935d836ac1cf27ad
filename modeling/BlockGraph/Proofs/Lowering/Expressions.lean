import BlockGraph.Proofs.Lowering.Shifts
import BlockGraph.Proofs.Lowering.Traversal

namespace BlockGraph.Lowering

open Builder

variable {b c : BlockId} {r : Register} {α : Type} {s s' : Builder} {ps : List Parameter}

theorem leads_lift {x : BuildM α} (h : Stays b x) :
    Leads Advances b (fun _ => b) (liftM x : LowerM α) := by
  intro s a s' hr
  obtain ⟨t, ht, rfl⟩ := Runs.lift_build_iff.1 hr
  exact .of_moves (h ht).toMoves

theorem leads_except {x : Except Fault α} : Leads Advances b (fun _ => b) (liftM x : LowerM α) := by
  intro s a s' h
  obtain ⟨-, rfl⟩ := Runs.lift_except_lower_iff.1 h
  exact .refl _ _

abbrev Settles {α : Type} (x : LowerM α) : Prop :=
  ∀ ⦃s a s'⦄, Runs x s a s' → Rebuilds [] s [] s'

theorem Settles.leads {x : LowerM α} (h : Settles x) : Leads Advances b (fun _ => b) x := by
  intro s a s' hr
  exact (h hr).frame [b]

theorem Settles.bind {β : Type} {x : LowerM α} {f : α → LowerM β} (hx : Settles x)
    (hf : ∀ a, Settles (f a)) : Settles (x >>= f) := by
  intro s a s' hr
  obtain ⟨a', t, ha, hf'⟩ := Runs.bind_iff.1 hr
  exact (hx ha).trans (hf a' hf')

theorem settles_of_eq {x : LowerM α} (h : ∀ s a s', Runs x s a s' → s' = s) : Settles x := by
  intro s a s' hr
  obtain rfl := h s a s' hr
  exact .refl _ _

theorem settles_pure {a : α} : Settles (pure a) :=
  settles_of_eq fun _ _ _ h => (Runs.pure_iff.1 h).2

theorem settles_classLayout {k : ClassId} : Settles (classLayout k) :=
  settles_of_eq fun _ _ _ h => (runs_classLayout.1 h).2

theorem settles_functionEntry {f : FunctionId} : Settles (functionEntry f) :=
  settles_of_eq fun _ _ _ h => (runs_functionEntry.1 h).2

theorem settles_returnLayout {result : ValueType} :
    Settles (liftM (returnLayout result) : LowerM LayoutId) := by
  intro s l s' h
  obtain ⟨t, ht, rfl⟩ := Runs.lift_build_iff.1 h
  rcases runs_returnLayout.1 ht with ⟨-, rfl⟩ | ⟨-, hreg⟩
  · exact .refl _ _
  · exact .of_moves (.register hreg)

mutual

theorem settles_lowerType : (t : SourceType) → Settles (lowerType t)
  | .prim _ => by
    rw [lowerType]
    exact settles_pure
  | .object _ => by
    rw [lowerType]
    exact settles_classLayout.bind fun _ => settles_pure
  | .array element => by
    rw [lowerType]
    exact (settles_lowerType element).bind fun _ => settles_pure
  | .function result parameters => by
    rw [lowerType]
    exact (settles_lowerType result).bind fun _ => settles_returnLayout.bind fun _ =>
      (settles_lowerTypes parameters).bind fun _ => settles_pure

theorem settles_lowerTypes : (ts : List SourceType) → Settles (lowerTypes ts)
  | [] => by
    rw [lowerTypes]
    exact settles_pure
  | t :: ts => by
    rw [lowerTypes]
    exact (settles_lowerType t).bind fun _ => (settles_lowerTypes ts).bind fun _ => settles_pure

end

theorem stays_store {place : Place} : Stays b (store b place r) := edits_store.stays

theorem stays_storeFields {n : Nat} {rs : List Register} : Stays b (storeFields b r n rs) :=
  edits_storeFields.stays

theorem stays_loadFields {n : Nat} {ts : List ValueType} : Stays b (loadFields b r n ts) :=
  edits_loadFields.stays

theorem moves_storeContinuation {u : Unit} (h : Runs (storeContinuation b r c) s u s') :
    Moves [] [b] s [b] s' ∧ c ∈ s'.graph.references b := by
  simp only [storeContinuation, Runs.bind_iff, Runs.pure_iff] at h
  obtain ⟨target, t, href, _, _, hstore, -, rfl⟩ := h
  have hwrite := stays_emit rfl hstore
  exact ⟨(moves_emitRef href).trans hwrite.toMoves,
    references_mono hwrite.graph_extends (references_emitRef href)⟩

theorem moves_packContext {returns : LayoutId} (h : Runs (packContext b c returns) s r s') :
    Moves [] [b, c] s [b, c] s' ∧ c ∈ s'.graph.references b := by
  have hb : b ∈ [b, c] := by simp
  have hc : c ∈ [b, c] := by simp
  simp only [packContext, Runs.bind_iff] at h
  obtain ⟨live, t, hlive, h⟩ := h
  split at h
  · simp only [Runs.bind_iff, Runs.pure_iff] at h
    obtain ⟨object, t₁, hnew, _, t₂, hstore, _, t₃, hset, rfl, rfl⟩ := h
    obtain ⟨hstored, href⟩ := moves_storeContinuation hstore
    have hend := (moves_setLocals hset).within hc
    refine ⟨?_, references_mono hend.graph_extends href⟩
    exact ((((stays_locals hlive).within hb).trans ((stays_emit rfl hnew).within hb)).trans
      (hstored.within hb)).trans hend
  · simp only [Runs.bind_iff, Runs.pure_iff, runs_contextLayout, runs_tell, Runs.lift_except_iff] at h
    obtain ⟨C, t₁, hC, types, t₂, htypes, l, _, ⟨rfl, rfl⟩, _, _, rfl, object, t₃, hnew, _, t₄, hstore,
      _, t₅, hfields, context, t₆, hup, resumed, t₇, hdown, loaded, t₈, hload, unpacked, _, ⟨-, rfl⟩,
      _, t₉, hset, rfl, rfl⟩ := h
    obtain ⟨hstored, href⟩ := moves_storeContinuation hstore
    have hend := (((((stays_storeFields hfields).within hb).trans
      ((stays_emit rfl hup).within hb)).trans ((stays_emit rfl hdown).within hc)).trans
      ((stays_loadFields hload).within hc)).trans ((moves_setLocals hset).within hc)
    refine ⟨?_, references_mono hend.graph_extends href⟩
    obtain ⟨-, rfl⟩ := runs_block.1 hC
    obtain ⟨B, hB, -, rfl⟩ := runs_locals.1 hlive
    obtain ⟨-, rfl⟩ := (runs_typesOf hB).1 htypes
    exact ((((Moves.layout _ _).frame [b, c]).trans ((stays_emit rfl hnew).within hb)).trans
      (hstored.within hb)).trans hend

theorem moves_addBlock (h : Runs (addBlock ps) s c s') : Moves [c] [] s [c] s' := by
  obtain ⟨rfl, rfl⟩ := runs_addBlock.1 h
  exact .append rfl ⟨rfl, rfl, rfl⟩

theorem moves_callJump {s₀ s₁ s₂ s₃ : Builder} {returns : LayoutId} {callee : Register}
    {args : List Register} {u : Unit} (hadd : Runs (addBlock ps) s₀ c s₁)
    (hpack : Runs (packContext b c returns) s₁ r s₂)
    (hgoto : Runs (goto b ⟨callee, r :: args⟩) s₂ u s₃) : Moves [] [b] s₀ [c] s₃ := by
  obtain ⟨hpacked, href⟩ := moves_packContext hpack
  have hjump := moves_goto hgoto
  refine .discharge (((moves_addBlock hadd).frame [b]).trans ?_)
    ⟨b, .inr (by simp), reaches_of_references (references_mono hjump.graph_extends href)⟩
  exact (hpacked.perm (by grind) .rfl).trans (hjump.frame _)

theorem leads_lowerCall {n : Nat} {t : SourceType} : Leads Advances b id (lowerCall b n t) := by
  refine (leads_lift stays_popMany).bind fun args => (leads_lift stays_pop).bind fun callee =>
    (leads_lift stays_typeOf).bind fun type => leads_except.bind fun returns =>
    (settles_lowerType t).leads.bind fun result => ?_
  intro s resume s' h
  simp only [Runs.bind_iff, Runs.lift_build_iff, Runs.ite_iff, Runs.pure_iff] at h
  obtain ⟨new, _, ⟨t₁, hadd, rfl⟩, context, _, ⟨t₂, hpack, rfl⟩, _, _, ⟨t₃, hgoto, rfl⟩, last, _,
    ⟨t₄, hlast, rfl⟩, h⟩ := h
  dsimp only at hpack hgoto hlast h
  obtain ⟨-, -, -, rfl⟩ := runs_lastRegister.1 hlast
  have hcall := moves_callJump hadd hpack hgoto
  rcases h with ⟨-, _, _, ⟨t₅, hcopy, rfl⟩, rfl, rfl⟩ | ⟨-, rfl, rfl⟩
  · exact .of_moves (hcall.trans (stays_copy hcopy).toMoves)
  · exact .of_moves hcall

theorem rebuilds_branch {s : State} {onTrue onFalse : BlockId} {t t' : Builder}
    (hlast : Runs (lastRegister b) s.toBuilder r t)
    (h : Runs (branch b r) t (onTrue, onFalse) t') :
    Rebuilds [b] s [onTrue, onFalse] { s with toBuilder := t' } := by
  obtain ⟨B, hB, hr, rfl⟩ := runs_lastRegister.1 hlast
  exact .of_moves (moves_branch h hB (Block.contains_of_lastRegister? hr))

class Lowers (R : BlockId → State → BlockId → State → Prop) : Prop extends Chains R where
  stays : ∀ {α : Type} {b : BlockId} {x : BuildM α}, Stays b x →
    Leads R b (fun _ => b) (liftM x : LowerM α)
  settles : ∀ {α : Type} {b : BlockId} {x : LowerM α}, Settles x → Leads R b (fun _ => b) x
  refer : ∀ {b : BlockId} {s : State} {k : Nat} {e : FunctionEntry} {r : Register} {t : Builder},
    s.functions[k]? = some e → Runs (emitRef b e.entry) s.toBuilder r t →
      R b s b { s with toBuilder := t }
  call : ∀ {b : BlockId} {n : Nat} {t : SourceType}, Leads R b id (lowerCall b n t)
  choose : ∀ {b onTrue onFalse first second merged : BlockId} {r : Register} {s s₁ s₂ : State}
    {t u : Builder}, Runs (lastRegister b) s.toBuilder r s.toBuilder →
      Runs (branch b r) s.toBuilder (onTrue, onFalse) t →
      R onTrue { s with toBuilder := t } first s₁ → R onFalse s₁ second s₂ →
      Runs (converge b [first, second]) s₂.toBuilder merged u →
      R b s merged { s₂ with toBuilder := u }

instance : Lowers Advances where
  stays := leads_lift
  settles := Settles.leads
  refer _ h := .of_moves (moves_emitRef h)
  call h := leads_lowerCall h
  choose hlast hbranch hfirst hsecond hmerge := by
    refine ((rebuilds_branch hlast hbranch).trans (hfirst.frame _)).trans ?_
    exact ((hsecond.frame _).perm (List.Perm.swap ..) (List.Perm.swap ..)).trans
      (.of_moves (moves_converge hmerge))

instance {R : BlockId → State → BlockId → State → Prop} [Lowers R] : Traces R where
  emit h := Lowers.stays (stays_emit h)
  copy h := Lowers.stays stays_copy h
  push h := Lowers.stays stays_push h
  popMany h := Lowers.stays stays_popMany h
  rebind h := Lowers.stays stays_rebind h
  define h := Lowers.stays stays_define h
  returnLayout h := Lowers.settles settles_returnLayout h
  refer := Lowers.refer
  call h := Lowers.call h
  choose := Lowers.choose

theorem leads_lowerExpr (b : BlockId) (e : Expr) : Leads Advances b id (lowerExpr b e) :=
  traces_lowerExpr b e

end BlockGraph.Lowering

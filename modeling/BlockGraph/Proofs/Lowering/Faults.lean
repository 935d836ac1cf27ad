import BlockGraph.Proofs.Builder.Faults
import BlockGraph.Proofs.Lowering.Forms

namespace BlockGraph

namespace Lowering

open Builder

section Calls

variable {b c : BlockId} {r : Register} {α β : Type}

def SincereLoading (x : StateT (List Register) (Except Fault) α) : Prop := ∀ s, Sincere (x.run s)

theorem SincereLoading.pure {a : α} : SincereLoading (pure a) := fun _ => .pure

theorem SincereLoading.bind {x : StateT (List Register) (Except Fault) α}
    {f : α → StateT (List Register) (Except Fault) β} (hx : SincereLoading x)
    (hf : ∀ a, SincereLoading (f a)) : SincereLoading (x >>= f) := by
  intro s
  rw [StateT.run_bind]
  exact (hx s).bind fun p => hf p.1 p.2

theorem SincereLoading.mapM {f : α → StateT (List Register) (Except Fault) β} {as : List α}
    (hf : ∀ a, SincereLoading (f a)) : SincereLoading (as.mapM f) := by
  induction as with
  | nil => exact .pure
  | cons a as ih => rw [List.mapM_cons]; exact (hf a).bind fun _ => ih.bind fun _ => .pure

theorem sincereLoading_nextLoaded : SincereLoading (nextLoaded b r) := by
  intro s
  cases s with
  | nil => exact Sincere.error_iff.2 trivial
  | cons r rest => exact .pure

theorem sincereLoading_option {o : Option Register} :
    SincereLoading (o.mapM (nextLoaded b)) := by
  cases o with
  | none => exact .pure
  | some r => exact sincereLoading_nextLoaded.bind fun _ => .pure

theorem sincereLoading_locals {l : Locals} : SincereLoading (l.mapM (nextLoaded b)) :=
  sincereLoading_option.bind fun _ =>
    .bind (.bind (.mapM fun _ => sincereLoading_option.bind fun _ => .pure) fun _ => .pure) fun _ =>
      .bind (.mapM fun _ => sincereLoading_nextLoaded) fun _ => .pure

@[simp] theorem discerns_storeContinuation : Discerns (storeContinuation b r c) := by
  simp [storeContinuation]

@[simp] theorem discerns_storeFields {n : Nat} {rs : List Register} :
    Discerns (storeFields b r n rs) := by
  induction rs generalizing n with
  | nil => exact .pure
  | cons v vs ih => exact discerns_emit.bind fun _ => ih

@[simp] theorem discerns_loadFields {n : Nat} {ts : List ValueType} :
    Discerns (loadFields b r n ts) := by
  induction ts generalizing n with
  | nil => exact .pure
  | cons t ts ih => exact discerns_emit.bind fun _ => ih.bind fun _ => .pure

@[simp] theorem discerns_packContext {l : LayoutId} : Discerns (packContext b c l) := by
  refine discerns_locals.bind fun live => ?_
  split
  · exact discerns_emit.bind fun _ => discerns_storeContinuation.bind fun _ => by simp
  · exact discerns_block.bind fun _ => .bind (.mapM fun _ => discerns_typeOf) fun _ =>
      discerns_contextLayout.bind fun _ => discerns_tell.bind fun _ => discerns_emit.bind fun _ =>
      discerns_storeContinuation.bind fun _ => discerns_storeFields.bind fun _ =>
      discerns_emit.bind fun _ => discerns_emit.bind fun _ => discerns_loadFields.bind fun _ =>
      .bind (.lift_except (sincereLoading_locals _)) fun _ => by simp

@[simp] theorem sincere_returnsThrough {t : ValueType} : Sincere (returnsThrough t) := by
  unfold returnsThrough
  split <;> simp

end Calls

section Places

variable {b : BlockId} {r : Register} {t : ValueType} {place : Place}

@[simp] theorem discerns_readSymbol {name : String} : Discerns (readSymbol b name) := by
  refine discerns_locals.bind fun l => ?_
  split <;> simp

@[simp] theorem discerns_expectObject : Discerns (expectObject b r) := by
  refine discerns_typeOf.bind fun t => ?_
  split <;> simp

@[simp] theorem discerns_load : Discerns (load b place t) := by
  unfold load
  split
  · simp
  · simp
  · exact discerns_peek.bind fun _ => by simp

@[simp] theorem discerns_store : Discerns (store b place r) := by
  unfold store
  split
  · simp
  · simp
  · refine discerns_popMany.bind fun rs => ?_
    split <;> simp

@[simp] theorem sincere_oneCast : Sincere (oneCast t) := by
  unfold oneCast
  split <;> simp

@[simp] theorem discerns_emitOne : Discerns (emitOne b t) := by
  refine discerns_emit.bind fun one => .bind (by simp) fun op => ?_
  split <;> simp

@[simp] theorem discerns_update {op : BinaryOp} {old : Bool} :
    Discerns (update b place op t old) := by
  refine discerns_popMany.bind fun rs => ?_
  split
  · exact .bind (by simp) fun _ => discerns_emit.bind fun _ => by simp
  · simp

end Places

section Actions

variable {b : BlockId} {r : Register}

@[simp] theorem discerns_classLayout {c : ClassId} : Discerns (classLayout c) := by
  refine Discerns.get.bind fun s => ?_
  split <;> simp

@[simp] theorem discerns_functionEntry {f : FunctionId} : Discerns (functionEntry f) := by
  refine Discerns.get.bind fun s => ?_
  split <;> simp

@[simp] theorem discerns_constructed {c : ClassId} {n : Nat} : Discerns (constructed c n) :=
  discerns_classLayout.bind fun _ => .bind (by simp) fun _ =>
    .ite (fun _ => .bind (.throw trivial) fun _ => .pure) fun _ => .pure

@[simp] theorem discerns_construct {l : LayoutId} {n : Nat} : Discerns (construct b l n) :=
  discerns_popMany.bind fun _ => discerns_emit.bind fun _ => by simp

@[simp] theorem sincere_expectValueCast {op : CastOp} : Sincere (expectValueCast op) := by
  cases op <;> simp [expectValueCast]

@[simp] theorem discerns_continuationType {t : ValueType} : Discerns (continuationType t) := by
  unfold continuationType
  split
  · refine discerns_layout.bind fun l => ?_
    split <;> simp
  · simp

@[simp] theorem discerns_handBack {name : String} {value : Option Register} :
    Discerns (handBack name b value) := by
  refine .bind (by simp) fun l => ?_
  split
  · simp
  · exact .bind (by simp) fun _ => .bind (by simp) fun _ => .bind (by simp) fun _ =>
      .bind (by simp) fun _ => by simp

@[simp] theorem discerns_declare {c : ClassDecl} : Discerns (declare c) := by simp [declare]

@[simp] theorem discerns_defineParameters {n : Nat} {ps : List Parameter} :
    Discerns (defineParameters b n ps) := by
  induction ps generalizing n with
  | nil => exact .pure
  | cons p ps ih =>
    obtain ⟨t, name⟩ := p
    cases name with
    | none => exact ih
    | some name => exact discerns_define.bind fun _ => ih

@[simp] theorem discerns_popQueued : Discerns popQueued := by
  refine Discerns.get.bind fun s => ?_
  split
  · simp [popLoop]
  · simp

@[simp] theorem discerns_lowerJump {kind : LoopJump} {label : Option String} :
    Discerns (lowerJump b kind label) := by
  refine Discerns.get.bind fun s => ?_
  dsimp only
  split
  · cases label <;> simp
  · cases kind <;> simp
  · simp

@[simp] theorem discerns_exitLoop {leaving : List BlockId} : Discerns (exitLoop b leaving) := by
  unfold exitLoop
  exact .ite (fun _ => .pure) fun _ => by simp

end Actions

end Lowering

end BlockGraph

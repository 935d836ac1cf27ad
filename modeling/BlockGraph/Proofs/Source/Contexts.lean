import BlockGraph.Proofs.Source.Analysis
import Mathlib.Data.Option.Basic

namespace BlockGraph.Analysis

section Option

variable {α β : Type}

theorem guard_bind_eq_some {c : Prop} [Decidable c] {f : Unit → Option α} {a : α} :
    (guard c >>= f) = some a ↔ c ∧ f () = some a := by
  by_cases h : c <;> simp [guard, h, failure]

theorem bind_eq_some {x : Option α} {f : α → Option β} {b : β} :
    (x >>= f) = some b ↔ ∃ a, x = some a ∧ f a = some b :=
  Option.bind_eq_some_iff

end Option

namespace Context

variable {Γ Δ Θ : Context} {Δs : List Context} {n : String} {t : SourceType}

def Le (Γ Δ : Context) : Prop :=
  ∀ v ∈ Γ, ∃ a, ⟨v.name, v.type, a⟩ ∈ Δ ∧ (v.assigned = true → a = true)

def Distinct (Γ : Context) : Prop := (Γ.map (·.name)).Nodup

theorem Le.refl (Γ : Context) : Γ.Le Γ := fun v hv => ⟨v.assigned, hv, id⟩

theorem Le.trans (h : Γ.Le Δ) (k : Δ.Le Θ) : Γ.Le Θ := by
  intro v hv
  obtain ⟨a, ha, hva⟩ := h v hv
  obtain ⟨a', ha', haa⟩ := k _ ha
  exact ⟨a', ha', fun hv' => haa (hva hv')⟩

theorem Le.mem (h : Γ.Le Δ) (hv : ⟨n, t, true⟩ ∈ Γ) : ⟨n, t, true⟩ ∈ Δ := by
  obtain ⟨a, ha, hva⟩ := h _ hv
  obtain rfl : a = true := hva rfl
  exact ha

theorem le_append (Γ Δ : Context) : Γ.Le (Γ ++ Δ) := fun v hv =>
  ⟨v.assigned, List.mem_append_left _ hv, id⟩

theorem le_assign (Γ : Context) (n : String) : Γ.Le (Γ.assign n) := by
  intro v hv
  by_cases hn : v.name = n
  · exact ⟨true, List.mem_map.2 ⟨v, hv, by simp [hn]⟩, fun _ => rfl⟩
  · exact ⟨v.assigned, List.mem_map.2 ⟨v, hv, by simp [hn]⟩, id⟩

theorem le_assignTo (Γ : Context) (e : Expr) : Γ.Le (Γ.assignTo e) := by
  cases e with
  | var name t => exact Γ.le_assign name
  | _ => exact .refl Γ

theorem declares_iff : Γ.declares n t = true ↔ ∃ a, ⟨n, t, a⟩ ∈ Γ := by
  simp only [declares, List.any_eq_true, Bool.and_eq_true, decide_eq_true_eq]
  constructor
  · rintro ⟨v, hv, rfl, rfl⟩
    exact ⟨v.assigned, hv⟩
  · rintro ⟨a, ha⟩
    exact ⟨_, ha, rfl, rfl⟩

theorem Le.declares (h : Γ.Le Δ) (hn : Γ.declares n t = true) : Δ.declares n t = true := by
  obtain ⟨a, ha⟩ := declares_iff.1 hn
  obtain ⟨a', ha', -⟩ := h _ ha
  exact declares_iff.2 ⟨a', ha'⟩

theorem holds_iff : Γ.holds n = true ↔ ∃ t, ⟨n, t, true⟩ ∈ Γ := by
  simp only [holds, List.any_eq_true, Bool.and_eq_true, decide_eq_true_eq]
  constructor
  · rintro ⟨⟨_, t, _⟩, hv, rfl, rfl⟩
    exact ⟨t, hv⟩
  · rintro ⟨t, ht⟩
    exact ⟨_, ht, rfl, rfl⟩

theorem Distinct.eq (h : Γ.Distinct) {v w : Variable} (hv : v ∈ Γ) (hw : w ∈ Γ)
    (hn : v.name = w.name) : v = w :=
  List.inj_on_of_nodup_map h hv hw hn

theorem assign_of_mem (hd : Γ.Distinct) (hn : ⟨n, t, true⟩ ∈ Γ) : Γ.assign n = Γ := by
  refine List.map_congr_left (fun v hv => ?_) |>.trans (List.map_id Γ)
  by_cases hname : v.name = n
  · obtain rfl := hd.eq hv hn hname
    simp
  · simp [hname]

theorem assignTo_of_canRead (hd : Γ.Distinct) {e : Expr} (he : Γ.canRead e = true) :
    Γ.assignTo e = Γ := by
  cases e with
  | var name t => exact assign_of_mem hd (by simpa [canRead] using he)
  | _ => rfl

theorem Le.canRead (h : Γ.Le Δ) {e : Expr} (he : Γ.canRead e = true) : Δ.canRead e = true := by
  cases e with
  | var name t =>
    simp only [Context.canRead, decide_eq_true_eq] at he ⊢
    exact h.mem he
  | _ => rfl

theorem le_meet (h : ∀ Δ ∈ Δs, Γ.Le Δ) : Γ.Le (Γ.meet Δs) := by
  intro v hv
  refine ⟨_, List.mem_map.2 ⟨v, hv, rfl⟩, fun ha => ?_⟩
  rw [List.all_eq_true]
  intro Δ hΔ
  obtain ⟨a, hmem, hva⟩ := h Δ hΔ v hv
  obtain rfl : a = true := hva ha
  exact holds_iff.2 ⟨v.type, hmem⟩

theorem meet_le (h : Γ.Le Δ) (hd : Δ.Distinct) (hΔ : Δ ∈ Δs) : (Γ.meet Δs).Le Δ := by
  intro v hv
  obtain ⟨w, hw, rfl⟩ := List.mem_map.1 hv
  obtain ⟨a, ha, -⟩ := h w hw
  refine ⟨a, ha, fun hall => ?_⟩
  obtain ⟨t, ht⟩ := holds_iff.1 (List.all_eq_true.1 hall Δ hΔ)
  have heq : (⟨w.name, w.type, a⟩ : Variable) = ⟨w.name, t, true⟩ := hd.eq ha ht rfl
  simp only [Variable.mk.injEq, true_and] at heq
  exact heq.2

theorem meet_self (hd : Γ.Distinct) : Γ.meet [Γ] = Γ := by
  refine List.map_congr_left (fun v hv => ?_) |>.trans (List.map_id Γ)
  have hholds : Γ.holds v.name = v.assigned := by
    rw [Bool.eq_iff_iff, holds_iff]
    constructor
    · rintro ⟨t, ht⟩
      rw [hd.eq hv ht rfl]
    · intro ha
      exact ⟨v.type, by rw [← ha]; exact hv⟩
  simp [hholds]

end Context

section Checks

variable {D : Declared}

theorem asValue_eq_some {e : Expr} {o : Option Context} {Γ : Context} :
    asValue e o = some Γ ↔ e.type.isVoid = false ∧ o = some Γ := by
  unfold asValue
  cases e.type.isVoid <;> simp

mutual

theorem checkExpr_le {Γ Γ' : Context} :
    (e : Expr) → checkExpr D Γ e = some Γ' → Γ.Le Γ'
  | .literal _ t, h => by
    simp only [checkExpr, guard_bind_eq_some] at h
    obtain ⟨-, rfl⟩ : _ ∧ Γ = Γ' := ⟨h.1, Option.some.inj h.2⟩
    exact .refl Γ
  | .var name t, h => by
    simp only [checkExpr, guard_bind_eq_some] at h
    obtain ⟨-, rfl⟩ : _ ∧ Γ = Γ' := ⟨h.1, Option.some.inj h.2⟩
    exact .refl Γ
  | .function f t, h => by
    simp only [checkExpr, guard_bind_eq_some] at h
    obtain ⟨-, rfl⟩ : _ ∧ Γ = Γ' := ⟨h.1, Option.some.inj h.2⟩
    exact .refl Γ
  | .unary _ operand t, h => by
    simp only [checkExpr, guard_bind_eq_some, asValue_eq_some] at h
    exact checkExpr_le operand h.2.2
  | .binary op left right t, h => by
    rw [checkExpr] at h
    simp only [↓guard_bind_eq_some, bind_eq_some, asValue_eq_some] at h
    obtain ⟨-, Γ₁, ⟨-, hleft⟩, -, hright⟩ := h
    exact (checkExpr_le left hleft).trans (checkExpr_le right hright)
  | .logic op left right t, h => by simp [checkExpr] at h
  | .cast op operand t, h => by
    simp only [checkExpr, guard_bind_eq_some, asValue_eq_some] at h
    exact checkExpr_le operand h.2.2
  | .field object index t, h => by
    simp only [checkExpr, guard_bind_eq_some, asValue_eq_some] at h
    exact checkExpr_le object h.2.2
  | .assign target value t, h => by
    rw [checkExpr] at h
    simp only [↓guard_bind_eq_some, bind_eq_some, asValue_eq_some] at h
    obtain ⟨-, Γ₁, htarget, Γ₂, ⟨-, hvalue⟩, hend⟩ := h
    obtain rfl := Option.some.inj hend
    exact ((checkTarget_le target htarget).trans (checkExpr_le value hvalue)).trans
      (Γ₂.le_assignTo target)
  | .compound _ target value t, h => by
    rw [checkExpr] at h
    simp only [↓guard_bind_eq_some, bind_eq_some, asValue_eq_some] at h
    obtain ⟨-, Γ₁, htarget, -, -, hvalue⟩ := h
    exact (checkTarget_le target htarget).trans (checkExpr_le value hvalue)
  | .step _ target t, h => by
    rw [checkExpr] at h
    simp only [↓guard_bind_eq_some, bind_eq_some] at h
    obtain ⟨-, Γ₁, htarget, -, hend⟩ := h
    obtain rfl := Option.some.inj hend
    exact checkTarget_le target htarget
  | .conditional condition first second t, h => by
    rw [checkExpr] at h
    simp only [↓guard_bind_eq_some, bind_eq_some, asValue_eq_some] at h
    obtain ⟨-, Γ₁, hcond, Γ₂, ⟨-, hfirst⟩, Γ₃, ⟨-, hsecond⟩, hend⟩ := h
    obtain rfl := Option.some.inj hend
    refine (checkExpr_le condition hcond).trans (Context.le_meet ?_)
    simpa using ⟨checkExpr_le first hfirst, checkExpr_le second hsecond⟩
  | .call callee arguments t, h => by
    rw [checkExpr] at h
    simp only [↓guard_bind_eq_some, bind_eq_some] at h
    obtain ⟨-, Γ₁, hcallee, hargs⟩ := h
    exact (checkExpr_le callee hcallee).trans (checkValues_le arguments hargs)
  | .new c arguments t, h => by
    simp only [checkExpr, guard_bind_eq_some] at h
    exact checkValues_le arguments h.2
  | .newArray length t, h => by
    simp only [checkExpr, guard_bind_eq_some, asValue_eq_some] at h
    exact checkExpr_le length h.2.2
  | .native _ arguments t, h => by
    simp only [checkExpr, guard_bind_eq_some] at h
    exact checkValues_le arguments h.2

theorem checkValues_le {Γ Γ' : Context} :
    (es : List Expr) → checkValues D Γ es = some Γ' → Γ.Le Γ'
  | [], h => by
    obtain rfl := Option.some.inj h
    exact .refl Γ
  | e :: es, h => by
    simp only [checkValues, bind_eq_some, asValue_eq_some] at h
    obtain ⟨Γ₁, ⟨-, he⟩, hes⟩ := h
    exact (checkExpr_le e he).trans (checkValues_le es hes)

theorem checkTarget_le {Γ Γ' : Context} :
    (e : Expr) → checkTarget D Γ e = some Γ' → Γ.Le Γ'
  | .var name t, h => by
    simp only [checkTarget, guard_bind_eq_some] at h
    obtain ⟨-, rfl⟩ : _ ∧ Γ = Γ' := ⟨h.1, Option.some.inj h.2⟩
    exact .refl Γ
  | .field object index t, h => by
    simp only [checkTarget, guard_bind_eq_some, asValue_eq_some] at h
    exact checkExpr_le object h.2.2
  | .binary .index array index t, h => by
    rw [checkTarget] at h
    simp only [↓guard_bind_eq_some, bind_eq_some, asValue_eq_some] at h
    obtain ⟨-, Γ₁, ⟨-, harray⟩, -, hindex⟩ := h
    exact (checkExpr_le array harray).trans (checkExpr_le index hindex)
  | .literal .., h | .function .., h | .unary .., h | .logic .., h | .cast .., h | .assign .., h
  | .compound .., h | .step .., h | .conditional .., h | .call .., h | .new .., h
  | .newArray .., h | .native .., h | .binary (.compare _) .., h | .binary (.numeric _) .., h
  | .binary (.shift _) .., h | .binary .concat .., h | .binary .identity .., h => by
    simp [checkTarget] at h

end

theorem declares_of_checkTarget {Γ Γ' : Context} {n : String} {t : SourceType}
    (h : checkTarget D Γ (.var n t) = some Γ') : Γ'.declares n t = true := by
  simp only [checkTarget, guard_bind_eq_some] at h
  obtain ⟨hn, rfl⟩ : _ ∧ Γ = Γ' := ⟨h.1, Option.some.inj h.2⟩
  exact hn

theorem checkCondition_eq_some {Γ Γ' : Context} {e : Expr} :
    checkCondition D Γ e = some Γ' ↔ e.type = .prim .bool ∧ checkExpr D Γ e = some Γ' := by
  rw [checkCondition, guard_bind_eq_some]

theorem checkJump_eq_some {kind : LoopJump} {label : Option String} {Γ : Context}
    {ls ls' : List Loop} (h : checkJump kind label Γ ls = some ls') :
    ∃ inner l outer, ls = inner ++ l :: outer ∧ (label.isNone || l.label = label) = true ∧
      (∀ k ∈ inner, (label.isNone || k.label = label) = false) ∧
      ls' = inner ++ l.enqueue kind Γ :: outer := by
  induction ls generalizing ls' with
  | nil => simp [checkJump] at h
  | cons l ls ih =>
    rw [checkJump] at h
    split at h
    case isTrue hl =>
      obtain rfl := Option.some.inj h
      exact ⟨[], l, ls, rfl, hl, by simp, rfl⟩
    case isFalse hl =>
      obtain ⟨ls'', hls, rfl⟩ := Option.map_eq_some_iff.1 h
      obtain ⟨inner, k, outer, rfl, hk, hinner, rfl⟩ := ih hls
      refine ⟨l :: inner, k, outer, rfl, hk, ?_, rfl⟩
      intro k' hk'
      rcases List.mem_cons.1 hk' with rfl | hk'
      · exact Bool.eq_false_iff.2 hl
      · exact hinner k' hk'

end Checks

end BlockGraph.Analysis

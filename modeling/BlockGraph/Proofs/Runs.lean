import BlockGraph.Lowering.Basic
import Mathlib.Control.Traversable.Instances
import Mathlib.Data.List.Forall2

namespace BlockGraph

section Except

variable {ε α β : Type}

theorem exists_eq_ok {x : Except ε α} (h : x.isOk = true) : ∃ a, x = .ok a := by
  cases x with
  | error e => simp [Except.isOk, Except.toBool] at h
  | ok a => exact ⟨a, rfl⟩

theorem bind_eq_ok {x : Except ε α} {f : α → Except ε β} {b : β} :
    (x >>= f) = .ok b ↔ ∃ a, x = .ok a ∧ f a = .ok b := by
  cases x <;> simp [bind, Except.bind]

theorem pure_eq_ok {a b : α} : (pure a : Except ε α) = .ok b ↔ a = b := by
  simp [pure, Except.pure]

theorem mapM_eq_ok {f : α → Except ε β} {as : List α} {bs : List β} :
    as.mapM f = .ok bs ↔ List.Forall₂ (fun a b => f a = .ok b) as bs := by
  induction as generalizing bs with
  | nil =>
    rw [List.mapM_nil, pure_eq_ok, List.forall₂_nil_left_iff]
    exact eq_comm
  | cons a as ih =>
    rw [List.mapM_cons, List.forall₂_cons_left_iff]
    simp only [bind_eq_ok, pure_eq_ok, ih]
    constructor
    · rintro ⟨b, hb, cs, hcs, rfl⟩
      exact ⟨b, cs, hb, hcs, rfl⟩
    · rintro ⟨b, cs, hb, hcs, rfl⟩
      exact ⟨b, hb, cs, hcs, rfl⟩

theorem mapM_eq_ok_map {f : α → Except ε β} {h : α → β} {l : List α}
    (hl : ∀ a ∈ l, f a = .ok (h a)) : l.mapM f = .ok (l.map h) := by
  rw [mapM_eq_ok, List.forall₂_map_right_iff, List.forall₂_same]
  exact hl

theorem exists_forall₂ {R : α → β → Prop} {as : List α} (h : ∀ a ∈ as, ∃ b, R a b) :
    ∃ bs, List.Forall₂ R as bs := by
  induction as with
  | nil => exact ⟨[], .nil⟩
  | cons a as ih =>
    obtain ⟨b, hb⟩ := h a (by simp)
    obtain ⟨bs, hbs⟩ := ih fun a ha => h a (by simp [ha])
    exact ⟨b :: bs, .cons hb hbs⟩

theorem forall₂_imp_of_mem {R S : α → β → Prop} {as : List α} {bs : List β}
    (h : List.Forall₂ R as bs) (hRS : ∀ a ∈ as, ∀ b, R a b → S a b) : List.Forall₂ S as bs := by
  induction h with
  | nil => exact .nil
  | cons hab _ ih => exact .cons (hRS _ (by simp) _ hab) (ih fun a ha => hRS a (by simp [ha]))

theorem map_eq_map_of_forall₂ {γ : Type} {R : α → β → Prop} {f : α → γ} {g : β → γ} {as : List α}
    {bs : List β} (h : List.Forall₂ R as bs) (hR : ∀ a b, R a b → f a = g b) :
    as.map f = bs.map g := by
  induction h with
  | nil => rfl
  | cons hab _ ih => rw [List.map_cons, List.map_cons, hR _ _ hab, ih]

theorem forall₂_join {γ : Type} {P : α → β → Prop} {Q : α → γ → Prop} {R : β → γ → Prop}
    {as : List α} {bs : List β} {cs : List γ} (h : List.Forall₂ P as bs) (k : List.Forall₂ Q as cs)
    (hR : ∀ a b c, P a b → Q a c → R b c) : List.Forall₂ R bs cs := by
  induction h generalizing cs with
  | nil =>
    obtain rfl := List.forall₂_nil_left_iff.1 k
    exact .nil
  | cons hab _ ih =>
    obtain ⟨c, cs, hac, hcs, rfl⟩ := List.forall₂_cons_left_iff.1 k
    exact .cons (hR _ _ _ hab hac) (ih hcs)

theorem forall₂_mem_right {R : α → β → Prop} {as : List α} {bs : List β}
    (h : List.Forall₂ R as bs) {b : β} (hb : b ∈ bs) : ∃ a ∈ as, R a b := by
  obtain ⟨n, hn, rfl⟩ := List.mem_iff_getElem.1 hb
  have hlen := h.length_eq
  exact ⟨_, List.getElem_mem (by omega), h.get (by omega) hn⟩

theorem forall₂_mem_left {R : α → β → Prop} {as : List α} {bs : List β}
    (h : List.Forall₂ R as bs) {a : α} (ha : a ∈ as) : ∃ b ∈ bs, R a b :=
  forall₂_mem_right (List.Forall₂.flip h) ha

theorem forall₂_append_right {R : α → β → Prop} {as : List α} {bs cs : List β}
    (h : List.Forall₂ R as (bs ++ cs)) :
    ∃ as₁ as₂, as = as₁ ++ as₂ ∧ List.Forall₂ R as₁ bs ∧ List.Forall₂ R as₂ cs :=
  ⟨_, _, (List.take_append_drop bs.length as).symm, List.forall₂_take_append as bs cs h,
    List.forall₂_drop_append as bs cs h⟩

theorem option_mapM_some_eq_ok {f : α → Except ε β} {a : α} {o : Option β} :
    Option.mapM f (some a) = .ok o ↔ ∃ b, f a = .ok b ∧ o = some b := by
  simp only [Option.mapM, map_eq_pure_bind, bind_eq_ok, pure_eq_ok]
  simp only [eq_comm]

end Except

namespace Logged

variable {α β : Type}

instance : LawfulMonad Logged := by
  refine LawfulMonad.mk' _ ?_ ?_ ?_
  · intro α x
    obtain ⟨events, result⟩ := x
    cases result <;> simp [Functor.map]
  · intro α β a f
    simp [bind, pure]
  · intro α β γ x f g
    obtain ⟨events, result⟩ := x
    cases result with
    | error e => simp [bind]
    | ok a =>
      simp only [bind]
      cases (f a).result <;> simp [List.append_assoc]

theorem bind_result_eq_ok {x : Logged α} {f : α → Logged β} {b : β} :
    (x >>= f).result = .ok b ↔ ∃ a, x.result = .ok a ∧ (f a).result = .ok b := by
  obtain ⟨events, result⟩ := x
  cases result <;> simp [bind]

theorem pure_result (a : α) : (pure a : Logged α).result = .ok a := rfl

theorem tell_result (e : Event) : (tell e).result = .ok () := rfl

end Logged

/-- The action ends without a fault: from the state `s` it yields `a` and leaves the state `s'`. -/
def Runs {σ α : Type} (x : StateT σ Logged α) (s : σ) (a : α) (s' : σ) : Prop :=
  (x.run s).result = .ok (a, s')

namespace Runs

variable {σ α β : Type} {s s' : σ}

theorem unique {x : StateT σ Logged α} {a b : α} {t : σ} (h : Runs x s a s') (k : Runs x s b t) :
    a = b ∧ s' = t := by
  simpa using Except.ok.inj (h.symm.trans k)

@[simp] theorem bind_iff {x : StateT σ Logged α} {f : α → StateT σ Logged β} {b : β} :
    Runs (x >>= f) s b s' ↔ ∃ a t, Runs x s a t ∧ Runs (f a) t b s' := by
  simp [Runs, StateT.run_bind, Logged.bind_result_eq_ok]

@[simp] theorem pure_iff {a b : α} : Runs (pure a : StateT σ Logged α) s b s' ↔ b = a ∧ s' = s := by
  simp only [Runs, StateT.run_pure, Logged.pure_result, Except.ok.injEq, Prod.mk.injEq]
  exact and_congr eq_comm eq_comm

@[simp] theorem map_iff {x : StateT σ Logged α} {f : α → β} {b : β} :
    Runs (f <$> x) s b s' ↔ ∃ a, Runs x s a s' ∧ b = f a := by
  rw [map_eq_pure_bind, bind_iff]
  constructor
  · rintro ⟨a, t, h, k⟩
    obtain ⟨rfl, rfl⟩ := pure_iff.1 k
    exact ⟨a, h, rfl⟩
  · rintro ⟨a, h, rfl⟩
    exact ⟨a, s', h, pure_iff.2 ⟨rfl, rfl⟩⟩

@[simp] theorem get_iff {a : σ} : Runs (get : StateT σ Logged σ) s a s' ↔ a = s ∧ s' = s := by
  simp only [Runs, StateT.run_get, Logged.pure_result, Except.ok.injEq, Prod.mk.injEq]
  exact and_congr eq_comm eq_comm

@[simp] theorem modify_iff {f : σ → σ} {u : PUnit} :
    Runs (modify f : StateT σ Logged PUnit) s u s' ↔ s' = f s := by
  simp only [Runs, StateT.run_modify, Logged.pure_result, Except.ok.injEq, Prod.mk.injEq, true_and]
  exact eq_comm

@[simp] theorem ite_iff {c : Prop} [Decidable c] {x y : StateT σ Logged α} {a : α} :
    Runs (if c then x else y) s a s' ↔ (c ∧ Runs x s a s') ∨ (¬c ∧ Runs y s a s') := by
  split <;> simp [*]

@[simp] theorem throw_iff {e : Fault} {a : α} :
    Runs (throw e : StateT σ Logged α) s a s' ↔ False := by
  simp only [iff_false]
  exact nofun

@[simp] theorem lift_logged_iff {x : Logged α} {a : α} :
    Runs (liftM x : StateT σ Logged α) s a s' ↔ x.result = .ok a ∧ s' = s := by
  change (x >>= fun a => pure (a, s)).result = .ok (a, s') ↔ _
  simp only [Logged.bind_result_eq_ok, Logged.pure_result, Except.ok.injEq, Prod.mk.injEq]
  constructor
  · rintro ⟨a, h, rfl, rfl⟩
    exact ⟨h, rfl⟩
  · rintro ⟨h, rfl⟩
    exact ⟨a, h, rfl, rfl⟩

@[simp] theorem lift_except_iff {x : Except Fault α} {a : α} :
    Runs (liftM x : StateT σ Logged α) s a s' ↔ x = .ok a ∧ s' = s :=
  lift_logged_iff (x := ⟨[], x⟩)

theorem mapM_iff {f : α → StateT σ Logged β} {P : α → β → Prop}
    (hf : ∀ a b t, Runs (f a) s b t ↔ P a b ∧ t = s) {as : List α} {bs : List β} :
    Runs (as.mapM f) s bs s' ↔ List.Forall₂ P as bs ∧ s' = s := by
  induction as generalizing bs s' with
  | nil => simp only [List.mapM_nil, pure_iff, List.forall₂_nil_left_iff]
  | cons a as ih =>
    simp only [List.mapM_cons, bind_iff, pure_iff, List.forall₂_cons_left_iff]
    constructor
    · rintro ⟨b, t, hb, bs', t', hbs, rfl, rfl⟩
      obtain ⟨hP, rfl⟩ := (hf _ _ _).1 hb
      obtain ⟨hPs, rfl⟩ := ih.1 hbs
      exact ⟨⟨b, bs', hP, hPs, rfl⟩, rfl⟩
    · rintro ⟨⟨b, bs', hb, hbs, rfl⟩, rfl⟩
      exact ⟨b, s', (hf _ _ _).2 ⟨hb, rfl⟩, bs', s', ih.2 ⟨hbs, rfl⟩, rfl, rfl⟩

theorem forM_nil {f : α → StateT σ Logged PUnit} {u : PUnit} :
    Runs (([] : List α).forM f) s u s' ↔ s' = s := by
  simp [List.forM]

theorem forM_cons {f : α → StateT σ Logged PUnit} {a : α} {as : List α} {u : PUnit} :
    Runs ((a :: as).forM f) s u s' ↔ ∃ t, Runs (f a) s ⟨⟩ t ∧ Runs (as.forM f) t u s' := by
  rw [List.forM, bind_iff]
  exact ⟨fun ⟨_, t, h⟩ => ⟨t, h⟩, fun ⟨t, h⟩ => ⟨⟨⟩, t, h⟩⟩

section Lowering

variable {s s' : Lowering.State}

@[simp] theorem lift_build_iff {x : BuildM α} {a : α} :
    Runs (liftM x : LowerM α) s a s' ↔ ∃ t, Runs x s.toBuilder a t ∧ s' = { s with toBuilder := t } := by
  change (x.run s.toBuilder >>= fun p => pure (p.1, { s with toBuilder := p.2 })).result = _ ↔ _
  simp only [Logged.bind_result_eq_ok, Logged.pure_result, Except.ok.injEq, Prod.mk.injEq]
  constructor
  · rintro ⟨⟨a, t⟩, h, rfl, rfl⟩
    exact ⟨t, h, rfl⟩
  · rintro ⟨t, h, rfl⟩
    exact ⟨(a, t), h, rfl, rfl⟩

@[simp] theorem lift_except_lower_iff {x : Except Fault α} {a : α} :
    Runs (liftM x : LowerM α) s a s' ↔ x = .ok a ∧ s' = s := by
  change Runs (liftM (liftM x : BuildM α) : LowerM α) s a s' ↔ _
  simp only [lift_build_iff, lift_except_iff]
  constructor
  · rintro ⟨t, ⟨h, rfl⟩, rfl⟩
    exact ⟨h, rfl⟩
  · rintro ⟨h, rfl⟩
    exact ⟨_, ⟨h, rfl⟩, rfl⟩

end Lowering

end Runs

def Succeeds {σ α : Type} (x : StateT σ Logged α) (s : σ) (Q : α → σ → Prop) : Prop :=
  ∃ a s', Runs x s a s' ∧ Q a s'

namespace Succeeds

variable {σ α β : Type} {s : σ} {x : StateT σ Logged α} {P Q : α → σ → Prop}

theorem bind {f : α → StateT σ Logged β} {R : β → σ → Prop} (hx : Succeeds x s P)
    (hf : ∀ a t, Runs x s a t → P a t → Succeeds (f a) t R) : Succeeds (x >>= f) s R := by
  obtain ⟨a, t, hrun, hP⟩ := hx
  obtain ⟨b, s', hrun', hR⟩ := hf a t hrun hP
  exact ⟨b, s', Runs.bind_iff.2 ⟨a, t, hrun, hrun'⟩, hR⟩

theorem run_bind {a : α} {t : σ} {f : α → StateT σ Logged β} {R : β → σ → Prop} (hx : Runs x s a t)
    (hf : Succeeds (f a) t R) : Succeeds (x >>= f) s R := by
  obtain ⟨b, u, hb, hR⟩ := hf
  exact ⟨b, u, Runs.bind_iff.2 ⟨a, t, hx, hb⟩, hR⟩

theorem pure {a : α} (h : Q a s) : Succeeds (Pure.pure a) s Q :=
  ⟨a, s, Runs.pure_iff.2 ⟨rfl, rfl⟩, h⟩

theorem imp (hx : Succeeds x s P) (h : ∀ a t, Runs x s a t → P a t → Q a t) : Succeeds x s Q := by
  obtain ⟨a, t, hrun, hP⟩ := hx
  exact ⟨a, t, hrun, h a t hrun hP⟩

theorem lift_except_lower {s : Lowering.State} {y : Except Fault α} {a : α}
    {Q : α → Lowering.State → Prop} (hy : y = .ok a) (h : Q a s) :
    Succeeds (liftM y : LowerM α) s Q :=
  ⟨a, s, Runs.lift_except_lower_iff.2 ⟨hy, rfl⟩, h⟩

theorem lift_bind {s : Lowering.State} {y : BuildM α} {f : α → BuildM β}
    {Q : β → Lowering.State → Prop}
    (h : Succeeds (liftM y >>= fun a => liftM (f a) : LowerM β) s Q) :
    Succeeds (liftM (y >>= f) : LowerM β) s Q := by
  obtain ⟨b, s', hrun, hQ⟩ := h
  simp only [Runs.bind_iff, Runs.lift_build_iff] at hrun
  obtain ⟨a, _, ⟨t, hy, rfl⟩, t', hf, rfl⟩ := hrun
  exact ⟨b, _, Runs.lift_build_iff.2 ⟨t', Runs.bind_iff.2 ⟨a, t, hy, hf⟩, rfl⟩, hQ⟩

theorem lift_pure {s : Lowering.State} {a : α} {Q : α → Lowering.State → Prop} (h : Q a s) :
    Succeeds (liftM (Pure.pure a : BuildM α) : LowerM α) s Q :=
  ⟨a, s, Runs.lift_build_iff.2 ⟨_, Runs.pure_iff.2 ⟨rfl, rfl⟩, rfl⟩, h⟩

theorem lift_lift_except {s : Lowering.State} {y : Except Fault α} {a : α}
    {Q : α → Lowering.State → Prop} (hy : y = .ok a) (h : Q a s) :
    Succeeds (liftM (liftM y : BuildM α) : LowerM α) s Q :=
  lift_except_lower hy h

end Succeeds

/-- However the action ends: without a fault `Q` holds of what it yields and of the state it leaves,
and any fault is one of `E`. -/
def Meets {σ α : Type} (E : Fault → Prop) (x : StateT σ Logged α) (s : σ) (Q : α → σ → Prop) : Prop :=
  match (x.run s).result with
  | .ok (a, s') => Q a s'
  | .error e => E e

namespace Meets

variable {σ α β : Type} {E : Fault → Prop} {s : σ} {x : StateT σ Logged α} {P Q : α → σ → Prop}

theorem of_runs (h : ∀ a s', Runs x s a s' → Q a s') : Meets (fun _ => True) x s Q := by
  unfold Meets
  split
  case h_1 a s' hrun => exact h a s' hrun
  case h_2 => trivial

theorem of_run {a : α} {s' : σ} (hrun : Runs x s a s') (h : Q a s') : Meets E x s Q := by
  unfold Meets
  rw [hrun]
  exact h

theorem holds (h : Meets E x s Q) {a : α} {s' : σ} (hrun : Runs x s a s') : Q a s' := by
  unfold Meets at h
  rwa [hrun] at h

theorem error (h : Meets E x s Q) {e : Fault} (he : (x.run s).result = .error e) : E e := by
  unfold Meets at h
  rwa [he] at h

theorem bind {f : α → StateT σ Logged β} {R : β → σ → Prop} (hx : Meets E x s P)
    (hf : ∀ a t, Runs x s a t → P a t → Meets E (f a) t R) : Meets E (x >>= f) s R := by
  unfold Meets
  rw [StateT.run_bind]
  cases hrun : (x.run s).result with
  | error e => simpa [Bind.bind, hrun] using hx.error hrun
  | ok p =>
    obtain ⟨a, t⟩ := p
    simpa [Bind.bind, hrun, Meets] using hf a t hrun (hx.holds hrun)

theorem run_bind {a : α} {t : σ} {f : α → StateT σ Logged β} {R : β → σ → Prop} (hx : Runs x s a t)
    (hf : Meets E (f a) t R) : Meets E (x >>= f) s R := by
  refine (of_run hx (Q := fun b u => b = a ∧ u = t) ⟨rfl, rfl⟩).bind ?_
  rintro _ _ - ⟨rfl, rfl⟩
  exact hf

theorem pure {a : α} (h : Q a s) : Meets E (Pure.pure a) s Q := of_run (Runs.pure_iff.2 ⟨rfl, rfl⟩) h

theorem throw {e : Fault} (h : E e) : Meets E (MonadExcept.throw e : StateT σ Logged α) s Q := h

theorem imp (hx : Meets E x s P) (h : ∀ a t, Runs x s a t → P a t → Q a t) : Meets E x s Q := by
  unfold Meets at hx ⊢
  split
  case h_1 a s' hrun =>
    rw [hrun] at hx
    exact h a s' hrun hx
  case h_2 e hrun =>
    rw [hrun] at hx
    exact hx

theorem lift_except {y : Except Fault α} (h : ∀ e, y = .error e → E e) :
    Meets E (liftM y : StateT σ Logged α) s fun a s' => y = .ok a ∧ s' = s := by
  cases hy : y with
  | ok a => exact of_run (Runs.lift_except_iff.2 ⟨rfl, rfl⟩) ⟨rfl, rfl⟩
  | error e => exact h e hy

theorem lift_build {s : Lowering.State} {y : BuildM α} {P : α → Builder → Prop}
    {Q : α → Lowering.State → Prop} (hy : Meets E y s.toBuilder P)
    (h : ∀ a t, Runs y s.toBuilder a t → P a t → Q a { s with toBuilder := t }) :
    Meets E (liftM y : LowerM α) s Q := by
  cases hrun : (y.run s.toBuilder).result with
  | ok p => exact of_run (Runs.lift_build_iff.2 ⟨p.2, hrun, rfl⟩) (h p.1 p.2 hrun (hy.holds hrun))
  | error e =>
    have hlift : ((liftM y : LowerM α).run s).result = .error e := by
      change (y.run s.toBuilder >>= fun p => Pure.pure (p.1, { s with toBuilder := p.2 })).result = _
      simp [Bind.bind, hrun]
    unfold Meets
    rw [hlift]
    exact hy.error hrun

theorem lift_except_lower {s : Lowering.State} {y : Except Fault α} (h : ∀ e, y = .error e → E e) :
    Meets E (liftM y : LowerM α) s fun a s' => y = .ok a ∧ s' = s := by
  change Meets E (liftM (liftM y : BuildM α) : LowerM α) s _
  refine (lift_except h).lift_build ?_
  rintro a t - ⟨ha, rfl⟩
  exact ⟨ha, rfl⟩

end Meets

end BlockGraph

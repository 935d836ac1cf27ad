import BlockGraph.Proofs.Course.Frames
import BlockGraph.Proofs.Course.Types
import BlockGraph.Proofs.Initialization.Expressions
import BlockGraph.Proofs.Lowering.Flow
import BlockGraph.Proofs.Lowering.Nesting
import Mathlib.Algebra.Order.Sub.Basic
import Mathlib.Data.Multiset.OrderedMonoid

namespace BlockGraph

def Stmt.introduces : Stmt → List String
  | .define _ clauses => clauses.map (·.name)
  | _ => []

namespace Lowering

open Builder

variable {fs : List FunctionId} {cs : List ClassId} {X Y : List BlockId} {s s₁ s' : State}
  {ls ls' : List LoopFrame} {b c q : BlockId} {o : Option BlockId} {σ : Shape}
  {Γ : List (String × ValueType)} {new : List String → Prop}

def joins (ls ls' : List LoopFrame) : Multiset BlockId := ↑(waiting ls') - ↑(waiting ls)

theorem joins_self (ls : List LoopFrame) : joins ls ls = 0 := tsub_self _

theorem joins_le (ls ls₁ ls' : List LoopFrame) : joins ls ls' ≤ joins ls₁ ls' + joins ls ls₁ :=
  tsub_le_tsub_add_tsub

theorem joins_cons {f f' : LoopFrame} (hf : f.targets.waiting = []) (h : LoopsGrow ls ls') :
    joins (f :: ls) (f' :: ls') = ↑f'.targets.waiting + joins ls ls' := by
  obtain ⟨N, hN⟩ := h.waiting
  have hle : (↑(waiting ls) : Multiset BlockId) ≤ ↑(waiting ls') := by
    rw [Multiset.coe_eq_coe.2 hN, ← Multiset.coe_add]
    exact le_self_add
  rw [joins, joins, waiting_cons, waiting_cons, hf, List.nil_append, ← Multiset.coe_add]
  exact add_tsub_assoc_of_le hle _

theorem Shifts.exists_joins (h : Shifts fs cs X s Y s') :
    ∃ E N, Moves E X s.toBuilder (Y ++ N) s'.toBuilder ∧ joins s.loops s'.loops = ↑N := by
  obtain ⟨E, N, hmoves, hwait, -⟩ := h.moves
  refine ⟨E, N, hmoves, ?_⟩
  rw [joins, Multiset.coe_eq_coe.2 hwait, ← Multiset.coe_add, add_tsub_cancel_left]

theorem Shifts.joins_notMem (h : Shifts fs cs X s Y s') (hX : s.AllOpen X)
    (hq : q ∈ joins s.loops s'.loops) : q ∉ Y := by
  obtain ⟨E, N, hmoves, hN⟩ := h.exists_joins
  obtain ⟨R, hR⟩ := hX
  have hnodup := (List.nodup_append.1 (hmoves.opens R hR).1).1
  rw [hN, Multiset.mem_coe] at hq
  exact fun hY => (List.nodup_append.1 hnodup).2.2 q hY q hq rfl

theorem Shifts.apart (h : Shifts fs cs X s Y s') {B : Block} (hc : c ∉ X)
    (hB : s.graph.block? c = some B) : c ∉ Y ∧ c ∉ joins s.loops s'.loops := by
  obtain ⟨E, N, hmoves, hN⟩ := h.exists_joins
  have hboth : c ∉ Y ++ N := by
    intro hmem
    rcases hmoves.fresh c hmem with hX | ⟨hnone, -⟩
    · exact hc hX
    · simp [hnone] at hB
  rw [hN, Multiset.mem_coe]
  exact ⟨fun hY => hboth (List.mem_append_left _ hY), fun hq => hboth (List.mem_append_right _ hq)⟩

def JoinsShaped (σ : Shape) (ls : List LoopFrame) (s' : State) : Prop :=
  ∀ q ∈ joins ls s'.loops, s'.graph.Open q σ

namespace JoinsShaped

theorem of_loops (h : s'.loops = ls) : JoinsShaped σ ls s' := by
  intro q hq
  rw [h, joins_self] at hq
  simp at hq

theorem trans (h : JoinsShaped σ ls s) (hs : Shifts fs cs X s Y s') (hX : ∀ q ∈ joins ls s.loops, q ∉ X)
    (hnew : JoinsShaped σ s.loops s') : JoinsShaped σ ls s' := by
  intro q hq
  rcases Multiset.mem_add.1 (Multiset.mem_of_le (joins_le ls s.loops s'.loops) hq) with hq | hq
  · exact hnew q hq
  · exact (h q hq).kept fun _ => hs.keeps (hX q hq)

theorem pop {f f' : LoopFrame} (h : JoinsShaped σ (f :: ls) s') (hf : f.targets.waiting = [])
    (hloops : s'.loops = f' :: ls') (hgrow : LoopsGrow ls ls') :
    JoinsShaped σ ls { s' with loops := ls' } ∧ ∀ q ∈ f'.targets.waiting, s'.graph.Open q σ := by
  rw [JoinsShaped, hloops, joins_cons hf hgrow] at h
  constructor
  · exact fun q hq => h q (Multiset.mem_add.2 (.inr hq))
  · exact fun q hq => h q (Multiset.mem_add.2 (.inl hq))

end JoinsShaped

/-- What code leaves: where control gets past it, a block with the shape and the variables, and new
ones after them; and the blocks that began to wait, with the shape. -/
structure Bequeaths (σ : Shape) (Γ : List (String × ValueType)) (new : List String → Prop)
    (ls : List LoopFrame) (o : Option BlockId) (s' : State) : Prop where
  goes : ∀ c ∈ o, ∃ Δ : List (String × ValueType), new (Δ.map Prod.fst) ∧
    s'.graph.Staged c σ (Γ ++ Δ)
  waits : JoinsShaped σ ls s'

namespace Bequeaths

theorem past (hnew : new []) (hc : s'.graph.Staged c σ Γ) (hwaits : JoinsShaped σ ls s') :
    Bequeaths σ Γ new ls (some c) s' := by
  refine ⟨fun d hd => ⟨[], hnew, ?_⟩, hwaits⟩
  obtain rfl := Option.mem_some_iff.1 hd
  simpa using hc

theorem none (hwaits : JoinsShaped σ ls s') : Bequeaths σ Γ new ls none s' := ⟨by simp, hwaits⟩

theorem shaped (h : Bequeaths σ Γ new ls o s') (hc : c ∈ o.toList) : s'.graph.Shaped c σ := by
  obtain ⟨Δ, -, hc⟩ := h.goes c (Option.mem_toList.1 hc)
  exact hc.framed.shaped

end Bequeaths

theorem allOpen_of_staged (h : s.graph.Staged b σ Γ) : s.AllOpen [b] := by
  obtain ⟨B, hB, hopen, -⟩ := h
  exact allOpen_singleton.2 ⟨B, hB, hopen⟩

theorem staged_joins {leaving : List BlockId} (h : Joins b leaving s o s')
    (hb : s.graph.Framed b σ Γ) (hleaving : ∀ p ∈ leaving, s.graph.Shaped p σ) :
    ∀ c ∈ o, s'.graph.Staged c σ Γ := by
  rcases h with ⟨-, rfl, rfl⟩ | ⟨-, c, t, hconverge, rfl, rfl⟩
  · simp
  · intro d hd
    obtain rfl := Option.mem_some_iff.1 hd
    exact staged_converge (n := 0) hconverge hb hleaving

theorem JoinsShaped.joins {preds : List BlockId} (hwaits : JoinsShaped σ ls s)
    (hapart : ∀ q ∈ joins ls s.loops, q ∉ preds) (hb : s.graph.Framed b σ Γ)
    (hpreds : ∀ p ∈ preds, s.graph.Shaped p σ) (h : Joins b preds s o s') :
    Bequeaths σ Γ (· = []) ls o s' :=
  ⟨fun c hc => ⟨[], rfl, by simpa using staged_joins h hb hpreds c hc⟩,
    hwaits.trans h.rebuilds.shifts hapart (.of_loops h.rebuilds.loops)⟩

theorem moulds_clauseType {type : Option ValueType} {k : Clause} {m : Nat} :
    Moulds (clauseType type k) b m (fun _ => b) fun _ => m := by
  unfold clauseType
  split
  · exact .pure rfl rfl
  · exact moulds_lowerType _
  · exact .throw

theorem staged_lowerClauses {type : Option ValueType} {clauses : List Clause}
    (h : Runs (lowerClauses type b clauses) s c s') (hb : s.graph.Staged b σ Γ) :
    ∃ Δ : List (String × ValueType), Δ.map Prod.fst = clauses.map (·.name) ∧
      s'.graph.Staged c σ (Γ ++ Δ) := by
  induction clauses generalizing b s Γ with
  | nil =>
    rw [lowerClauses] at h
    obtain ⟨rfl, rfl⟩ := Runs.pure_iff.1 h
    exact ⟨[], rfl, by simpa using hb⟩
  | cons k rest ih =>
    have hrest {d : BlockId} {r : Option Register} {s₁ : State} (hd : s₁.graph.Staged d σ Γ)
        (h : Runs (do
          let t ← clauseType type k
          tell (.symbolDefined k.name t d)
          define d k.name ⟨t, r⟩
          lowerClauses type d rest) s₁ c s') :
        ∃ Δ : List (String × ValueType), Δ.map Prod.fst = (k :: rest).map (·.name) ∧
          s'.graph.Staged c σ (Γ ++ Δ) := by
      simp only [Runs.bind_iff, Runs.lift_build_iff, runs_tell] at h
      obtain ⟨t, s₂, htype, _, _, ⟨_, rfl, rfl⟩, _, _, ⟨u, hdefine, rfl⟩, h⟩ := h
      have hd₂ : s₂.graph.Staged d σ Γ := moulds_clauseType (m := 0) htype σ Γ hd
      obtain ⟨Δ, hnames, hc⟩ := ih h (staged_define hdefine hd₂)
      refine ⟨(k.name, t) :: Δ, ?_, by simpa using hc⟩
      rw [List.map_cons, List.map_cons, hnames]
    rw [lowerClauses] at h
    cases hk : k.value with
    | none =>
      rw [hk] at h
      exact hrest hb h
    | some value =>
      rw [hk] at h
      obtain ⟨d, s₁, hvalue, h⟩ := Runs.bind_iff.1 h
      obtain ⟨r, s₂, hlast, h⟩ := Runs.bind_iff.1 h
      have hd : s₁.graph.Staged d σ Γ := moulds_lowerExpr b 0 value hvalue σ Γ hb
      exact hrest (moulds_lift (m := 0) moulds_lastRegister hlast σ Γ hd) h

theorem staged_closeLoop {inside : BlockId} {condition : Expr} {leaving repeating : List BlockId}
    (h : Runs (closeLoop b inside condition leaving repeating) s o s') (hb : s.graph.Framed b σ Γ)
    (hleaving : ∀ p ∈ leaving, s.graph.Shaped p σ)
    (hrepeating : ∀ p ∈ repeating, s.graph.Shaped p σ) : ∀ c ∈ o, s'.graph.Staged c σ Γ := by
  rcases closeLoop_cases h with ⟨-, t, ht, hjoin⟩ | ⟨-, -, c, t, t', hconverge, hjump, hjoin⟩ |
    ⟨-, -, c, t, tested, s₁, r, again, out, t₁, t₂, hconverge, htest, -, hbranch, hjump, rfl, rfl⟩
  · rcases ht with rfl | ht
    · exact staged_joins hjoin hb hleaving
    · obtain rfl := runs_report.1 ht
      exact staged_joins hjoin hb hleaving
  · apply staged_joins hjoin
    · exact framed_jump hjump (framed_converge hconverge hb)
    · exact fun p hp => jump_shaped hjump (converge_shaped hconverge (hleaving p hp))
  · -- the condition is tested in a new block, and leaves all others alone
    have hnew := converge_fresh hconverge
    have hkeeps {x : BlockId} {X : Block} (hx : x ≠ c) :=
      (leads_lowerExpr c condition htest).keeps (c := x) (B := X) (by simpa using hx)
    have hbc : b ≠ c := by
      rintro rfl
      obtain ⟨B, hB, -⟩ := hb
      simp [hB] at hnew
    have hbframe := (framed_converge hconverge hb).kept fun _ => hkeeps hbc
    have hleaving₁ : ∀ p ∈ leaving, s₁.graph.Shaped p σ := by
      intro p hp
      refine (converge_shaped hconverge (hleaving p hp)).kept fun _ => hkeeps ?_
      rintro rfl
      obtain ⟨P, hP, -⟩ := hleaving p hp
      simp [hP] at hnew
    have hc : t.graph.Staged c σ Γ := staged_converge (n := 0) hconverge hb hrepeating
    have htested : s₁.graph.Staged tested σ Γ := moulds_lowerExpr c 0 condition htest σ Γ hc
    obtain ⟨hout, hne⟩ := staged_convergeBranch hbranch hbframe htested.framed.shaped hleaving₁
    intro d hd
    obtain rfl := Option.mem_some_iff.1 hd
    exact hout.kept fun D => (moves_jump hjump).1.keeps _ D (by simpa using hne)

theorem bequeaths_lowerJump {kind : LoopJump} {label : Option String} {u : Unit}
    (h : Runs (lowerJump b kind label) s u s') (hb : s.graph.Staged b σ Γ) :
    Bequeaths σ Γ new s.loops none s' := by
  apply Bequeaths.none
  obtain ⟨E, N, hmoves, hN⟩ := (shifts_lowerJump h).exists_joins
  obtain ⟨inner, f, outer, -, -, -, h⟩ := runs_lowerJump.1 h
  split at h
  · obtain ⟨t, -, rfl⟩ := h
    exact .of_loops rfl
  · subst h
    intro q hq
    rw [hN, Multiset.mem_coe] at hq
    rcases hmoves.fresh q hq with hqb | ⟨hnone, hsome⟩
    · obtain rfl := List.mem_singleton.1 hqb
      exact hb.open
    · exact absurd hnone hsome

section Nested

variable {frame : Option Frame} {condition : Expr} {kind : LoopKind} {label : Option String}
  {body : Scope} {first second : Option Scope}

theorem bequeaths_cond
    (hnodup : (functionIds (armScopes first ++ armScopes second)).Nodup)
    (h : Runs (lowerStmt frame b (.cond condition first second)) s o s')
    (hb : s.graph.Staged b σ Γ)
    (hfirst : ∀ {s s' b o}, Runs (lowerArm frame b first) s o s' → s.graph.Staged b σ Γ →
      Bequeaths σ Γ (fun _ => True) s.loops o s')
    (hsecond : ∀ {s s' b o}, Runs (lowerArm frame b second) s o s' → s.graph.Staged b σ Γ →
      Bequeaths σ Γ (fun _ => True) s.loops o s') :
    Bequeaths σ Γ (· = []) s.loops o s' := by
  rw [functionIds_append] at hnodup
  obtain ⟨hleft, hright, hdisjoint⟩ := List.nodup_append.1 hnodup
  obtain ⟨c, s₁, r, onTrue, onFalse, t', o₁, s₂, o₂, s₃, hcond, hlast, hbranch, harm₁, harm₂, hjoin⟩ :=
    lowerStmt_cond h
  have hadvance := leads_lowerExpr b condition hcond
  have hsplit : Shifts [] [] [b] s [onTrue, onFalse] { s₁ with toBuilder := t' } :=
    (hadvance.trans (rebuilds_branch hlast hbranch)).shifts
  have hc : s₁.graph.Staged c σ Γ := moulds_lowerExpr b 0 condition hcond σ Γ hb
  obtain ⟨htrue, hfalse, hframe, hdistinct⟩ := staged_branch hbranch hc
  simp only [List.nodup_cons, List.mem_cons, List.not_mem_nil, or_false, not_or] at hdistinct
  have hshift₁ := shifts_lowerArm first hleft harm₁
  have hshift₂ := shifts_lowerArm second hright harm₂
  have hFalseTrue : onFalse ∉ [onTrue] := by simpa [eq_comm] using hdistinct.2.1
  have hloops : s₁.loops = s.loops := hadvance.loops
  have hleft₁ : Bequeaths σ Γ (fun _ => True) s.loops o₁ s₂ :=
    hloops ▸ hfirst (s := { s₁ with toBuilder := t' }) harm₁ htrue
  have hleft₂ : Bequeaths σ Γ (fun _ => True) s₂.loops o₂ s₃ :=
    hsecond harm₂ (hfalse.kept fun _ => hshift₁.keeps hFalseTrue)
  -- the second arm touches neither the end of the first one nor what waits after it
  obtain ⟨hend, hwait⟩ : onFalse ∉ o₁.toList ∧ onFalse ∉ joins s.loops s₂.loops := by
    obtain ⟨F, hF, -⟩ := hfalse
    exact hloops ▸ hshift₁.apart hFalseTrue hF
  have hwaits : JoinsShaped σ s.loops s₃ := hleft₁.waits.trans hshift₂
    (fun q hq hmem => hwait (List.mem_singleton.1 hmem ▸ hq)) hleft₂.waits
  have hends : ∀ p ∈ o₁.toList ++ o₂.toList, s₃.graph.Shaped p σ := by
    intro p hp
    rcases List.mem_append.1 hp with hp | hp
    · exact (hleft₁.shaped hp).kept fun _ => hshift₂.keeps fun hmem =>
        hend (List.mem_singleton.1 hmem ▸ hp)
    · exact hleft₂.shaped hp
  have hapart : ∀ q ∈ joins s.loops s₃.loops, q ∉ o₁.toList ++ o₂.toList := by
    have harms := (hsplit.trans (hshift₁.frame [onFalse]) (by simp)).trans
      ((hshift₂.frame o₁.toList).perm List.perm_append_comm List.perm_append_comm) hdisjoint
    exact fun q => harms.joins_notMem (allOpen_of_staged hb)
  have hframe₃ := (hframe.kept fun _ => hshift₁.keeps (by simpa using hdistinct.1.1)).kept
    fun _ => hshift₂.keeps (by simpa using hdistinct.1.2)
  exact hwaits.joins hapart hframe₃ hends hjoin

theorem bequeaths_testedLoop (hnodup : (functionIds body.scopes).Nodup)
    (hkind : (kind = .testFirst && !condition.isTrue) = true)
    (h : Runs (lowerStmt frame b (.loop kind label condition body)) s o s')
    (hb : s.graph.Staged b σ Γ)
    (hbody : ∀ {s s' b o}, Runs (lowerScope frame b body) s o s' → s.graph.Staged b σ Γ →
      Bequeaths σ Γ (fun _ => True) s.loops o s') :
    Bequeaths σ Γ (· = []) s.loops o s' := by
  obtain ⟨test, t, tested, s₁, r, inside, exit, t', bottom, s₂, henter, htest, hlast, hbranch, hrun, hend,
    rfl⟩ := lowerStmt_tested hkind h
  have hloops₁ : s₁.loops = s.loops := (leads_lowerExpr test condition htest).loops
  have htested : s₁.graph.Staged tested σ Γ :=
    moulds_lowerExpr test 0 condition htest σ Γ (staged_enter henter hb).1
  obtain ⟨hinside, hexit, -, hdistinct⟩ := staged_branch hbranch htested
  have hne : exit ∉ [inside] := by
    simp only [List.nodup_cons, List.mem_cons, List.not_mem_nil, or_false, not_or] at hdistinct
    simpa [eq_comm] using hdistinct.2.1
  have hleft := hbody hrun hinside
  obtain ⟨f', ls, hloops, -, hshift⟩ := (shifts_lowerScope body hnodup hrun).pop rfl
  have hwaits : JoinsShaped σ s.loops { s₂ with loops := ls } :=
    hloops₁ ▸ (hleft.waits.pop rfl hloops hshift.loops).1
  have hexit₂ : s₂.graph.Staged exit σ Γ := hexit.kept fun _ => hshift.keeps hne
  rw [hloops, List.tail_cons] at hend
  have hmoves := hend.rebuilds
  have hd : exit ∉ bottom.toList := by
    obtain ⟨T, hT, -⟩ := hexit
    exact fun hmem => (hshift.apart hne hT).1 (List.mem_append_left _ hmem)
  refine .past rfl (hexit₂.kept fun _ => hmoves.keeps hd) (hwaits.trans hmoves.shifts ?_ ?_)
  · intro q hq hmem
    have hinside' := allOpen_of_staged (s := { s₁ with toBuilder := t' }) hinside
    exact hshift.joins_notMem hinside' (by rwa [← hloops₁] at hq) (List.mem_append_left _ hmem)
  · exact .of_loops hmoves.loops

theorem bequeaths_queuedLoop (hnodup : (functionIds body.scopes).Nodup)
    (hkind : ¬(kind = .testFirst && !condition.isTrue) = true)
    (h : Runs (lowerStmt frame b (.loop kind label condition body)) s o s')
    (hb : s.graph.Staged b σ Γ)
    (hbody : ∀ {s s' b o}, Runs (lowerScope frame b body) s o s' → s.graph.Staged b σ Γ →
      Bequeaths σ Γ (fun _ => True) s.loops o s') :
    Bequeaths σ Γ (· = []) s.loops o s' := by
  obtain ⟨inside, t, bottom, s₂, label', leaving, repeating, ls', henter, hrun, hloops', hclose⟩ :=
    lowerStmt_queued hkind h
  obtain ⟨hinside, hframe, hne⟩ := staged_enter henter hb
  have hleft := hbody hrun hinside
  obtain ⟨f', ls, hloops, -, hshift⟩ := (shifts_lowerScope body hnodup hrun).pop rfl
  obtain ⟨rfl, rfl⟩ := List.cons.inj (hloops.symm.trans hloops')
  obtain ⟨hwaits, hqueued⟩ := hleft.waits.pop rfl hloops hshift.loops
  have hclosed := rebuilds_closeLoop hclose
  have hstaged : ∀ c ∈ o, s'.graph.Staged c σ Γ := by
    apply staged_closeLoop hclose
    · exact hframe.kept fun _ => hshift.keeps (by simpa using hne)
    · intro p hp
      exact (hqueued p (List.mem_append_left _ hp)).shaped
    · intro p hp
      rcases List.mem_append.1 hp with hp | hp
      · exact (hqueued p (List.mem_append_right _ hp)).shaped
      · exact hleft.shaped hp
  have hall : JoinsShaped σ s.loops s' := by
    refine hwaits.trans hclosed.shifts (fun q hq hmem => ?_) (.of_loops hclosed.loops)
    have hinside' := allOpen_of_staged (s := { s with toBuilder := t }) hinside
    refine hshift.joins_notMem hinside' hq ?_
    simp only [LoopTargets.waiting, List.mem_append] at hmem ⊢
    grind
  cases o with
  | none => exact .none hall
  | some c => exact .past rfl (hstaged c rfl) hall

end Nested

mutual

theorem bequeaths_lowerScope {frame : Option Frame} {b : BlockId} {s s' : State} {o : Option BlockId}
    {σ : Shape} {Γ : List (String × ValueType)} :
    (S : Scope) → (functionIds S.scopes).Nodup → Runs (lowerScope frame b S) s o s' →
      s.graph.Staged b σ Γ → Bequeaths σ Γ (fun _ => True) s.loops o s'
  | ⟨classes, functions, statements⟩, hnodup, h, hb => by
    rw [lowerScope] at h
    simp only [Runs.bind_iff] at h
    obtain ⟨_, s₁, hclasses, _, s₂, hfunctions, _, s₃, hfields, _, s₄, hbodies, hstmts⟩ := h
    simp only [Scope.scopes, functionIds_cons, functionIds_append] at hnodup
    obtain ⟨hids, hinner, hdisjoint⟩ := List.nodup_append.1 hnodup
    obtain ⟨hfs, hss, -⟩ := List.nodup_append.1 hinner
    obtain ⟨es, hhoist, hes⟩ := shifts_hoist hids hclasses hfunctions hfields
    have hbody := shifts_lowerFunctions functions (List.nodup_append.2 ⟨hids, hfs, fun f hf f' hf' =>
      hdisjoint f hf f' (List.mem_append_left _ hf')⟩) hes hbodies
    -- the entries of the functions are new, so that the block of the scope is none of them
    have hentries : b ∉ es.map (·.entry) := by
      obtain ⟨B, hB, -⟩ := hb
      exact (hhoist.apart (by simp) hB).1
    have hb₄ := (hb.kept fun _ => hhoist.keeps (by simp)).kept fun _ => hbody.keeps hentries
    have hloops : s₄.loops = s.loops := (adds_lowerFunctions functions hbodies).loops.trans
      (adds_hoist hclasses hfunctions hfields).loops
    exact hloops ▸ bequeaths_lowerStmts statements hss hstmts hb₄

theorem bequeaths_lowerStmts {frame : Option Frame} {b : BlockId} {s s' : State} {o : Option BlockId}
    {σ : Shape} {Γ : List (String × ValueType)} :
    (ss : List Stmt) → (functionIds (stmtScopes ss)).Nodup → Runs (lowerStmts frame b ss) s o s' →
      s.graph.Staged b σ Γ → Bequeaths σ Γ (fun _ => True) s.loops o s'
  | [], _, h, hb => by
    rw [lowerStmts] at h
    obtain ⟨rfl, rfl⟩ := Runs.pure_iff.1 h
    exact .past trivial hb (.of_loops rfl)
  | S :: rest, hnodup, h, hb => by
    rw [lowerStmts] at h
    simp only [Runs.bind_iff] at h
    obtain ⟨o', s₁, hS, h⟩ := h
    simp only [stmtScopes, functionIds_append] at hnodup
    obtain ⟨hfirst, hsecond, -⟩ := List.nodup_append.1 hnodup
    have hleft := bequeaths_lowerStmt S hfirst hS hb
    have hshift := shifts_lowerStmt S hfirst hS
    cases o' with
    | none =>
      simp only [Runs.ite_iff, Runs.bind_iff, Runs.pure_iff, Runs.lift_build_iff, runs_report] at h
      rcases h with ⟨-, _, _, ⟨_, rfl, rfl⟩, rfl, rfl⟩ | ⟨-, rfl, rfl⟩
      · exact .none hleft.waits
      · exact .none hleft.waits
    | some c =>
      obtain ⟨Δ, -, hc⟩ := hleft.goes c rfl
      have hrest := bequeaths_lowerStmts rest hsecond h hc
      refine ⟨fun d hd => ?_, hleft.waits.trans (shifts_lowerStmts rest hsecond h)
        (fun q hq => hshift.joins_notMem (allOpen_of_staged hb) hq) hrest.waits⟩
      obtain ⟨Δ', -, hd'⟩ := hrest.goes d hd
      exact ⟨Δ ++ Δ', trivial, by rwa [← List.append_assoc]⟩

theorem bequeaths_lowerStmt {frame : Option Frame} {b : BlockId} {s s' : State} {o : Option BlockId}
    {σ : Shape} {Γ : List (String × ValueType)} :
    (S : Stmt) → (functionIds S.scopes).Nodup → Runs (lowerStmt frame b S) s o s' →
      s.graph.Staged b σ Γ → Bequeaths σ Γ (· = S.introduces) s.loops o s'
  | .scope body, hnodup, h, hb => by
    obtain ⟨inner, t, o', s₁, henter, hbody, hjoin⟩ := lowerStmt_scope h
    rw [Stmt.scopes] at hnodup
    obtain ⟨hinner, hframe, hne⟩ := staged_enter henter hb
    have hshift := shifts_lowerScope body hnodup hbody
    have hleft := bequeaths_lowerScope body hnodup hbody hinner
    have hinner' := allOpen_of_staged (s := { s with toBuilder := t }) hinner
    exact hleft.waits.joins (fun q hq => hshift.joins_notMem hinner' hq)
      (hframe.kept fun _ => hshift.keeps (by simpa using hne)) (fun p => hleft.shaped) hjoin
  | .jump kind label, _, h, hb => by
    obtain ⟨rfl, hjump⟩ := lowerStmt_jump h
    exact bequeaths_lowerJump hjump hb
  | .define type clauses, _, h, hb => by
    obtain ⟨t, s₁, c, htype, hclauses, rfl⟩ := lowerStmt_define h
    have hsettle := settles_mapM htype
    obtain ⟨Δ, hnames, hc⟩ := staged_lowerClauses hclauses
      (hb.kept fun _ => hsettle.keeps (by simp))
    refine ⟨fun d hd => ⟨Δ, hnames, ?_⟩, .of_loops ?_⟩
    · rwa [← Option.mem_some_iff.1 hd]
    · exact (leads_lowerClauses hclauses).loops.trans hsettle.loops
  | .loop kind label condition body, hnodup, h, hb => by
    rw [Stmt.scopes] at hnodup
    by_cases hkind : (kind = .testFirst && !condition.isTrue) = true
    · exact bequeaths_testedLoop hnodup hkind h hb (bequeaths_lowerScope body hnodup)
    · exact bequeaths_queuedLoop hnodup hkind h hb (bequeaths_lowerScope body hnodup)
  | .expr value, _, h, hb => by
    obtain ⟨c, hvalue, rfl⟩ := lowerStmt_expr h
    exact .past rfl (moulds_lowerExpr b 0 value hvalue σ Γ hb)
      (.of_loops (leads_lowerExpr b value hvalue).loops)
  | .cond condition first second, hnodup, h, hb => by
    rw [Stmt.scopes] at hnodup
    have hboth := hnodup
    rw [functionIds_append] at hboth
    obtain ⟨hleft, hright, -⟩ := List.nodup_append.1 hboth
    exact bequeaths_cond hnodup h hb (bequeaths_lowerArm first hleft) (bequeaths_lowerArm second hright)
  | .ret value, _, h, hb => by
    obtain ⟨rfl, hreturn⟩ := lowerStmt_ret h
    exact .none (.of_loops (rebuilds_lowerReturn hreturn).loops)

theorem bequeaths_lowerArm {frame : Option Frame} {b : BlockId} {s s' : State} {o : Option BlockId}
    {σ : Shape} {Γ : List (String × ValueType)} :
    (S : Option Scope) → (functionIds (armScopes S)).Nodup → Runs (lowerArm frame b S) s o s' →
      s.graph.Staged b σ Γ → Bequeaths σ Γ (fun _ => True) s.loops o s'
  | some body, hnodup, h, hb => by
    rw [lowerArm] at h
    exact bequeaths_lowerScope body hnodup h hb
  | none, _, h, hb => by
    rw [lowerArm] at h
    obtain ⟨rfl, rfl⟩ := Runs.pure_iff.1 h
    exact .past trivial hb (.of_loops rfl)

end

theorem Shifts.closed {C : Block} (h : Shifts fs cs [b] s o.toList s') (hb : s.graph.IsOpen b)
    (hc : c = b ∨ s.graph.block? c = none) (hC : s'.graph.block? c = some C) :
    c ∈ o ∨ C.isTerminated = true ∨ ∃ f ∈ s'.loops, c ∈ f.targets.waiting := by
  obtain ⟨E, N, hmoves, hwait, -⟩ := h.moves
  obtain ⟨R, hR⟩ := allOpen_singleton.2 hb
  have hR' := hmoves.opens R hR
  cases hopen : C.isTerminated with
  | true => exact .inr (.inl rfl)
  | false =>
    have hmem := (hR'.2 c).1 ⟨C, hC, hopen⟩
    rw [List.mem_append, List.mem_append, Option.mem_toList] at hmem
    rcases hmem with (ho | hN) | hrest
    · exact .inl ho
    · have hw : c ∈ waiting s'.loops := hwait.mem_iff.2 (List.mem_append_right _ hN)
      exact .inr (.inr (List.mem_flatMap.1 hw))
    · exfalso
      rcases hc with rfl | hnone
      · exact (List.nodup_cons.1 hR.1).1 hrest
      · obtain ⟨B, hB, -⟩ := (hR.2 c).2 (List.mem_append_right _ hrest)
        simp [hnone] at hB

theorem State.Sound.staged {B : Block} (h : s.Sound) (hB : s.graph.block? b = some B)
    (hopen : B.isTerminated = false) : B.Has B.shape ∧ s.graph.Staged b B.shape B.scope := by
  obtain ⟨t, ht⟩ := h.slots b B hB
  have hhas : B.Has B.shape := .self (σ := ⟨t, [], B.locals.stack.length⟩) ⟨ht, by simp, rfl⟩
  exact ⟨hhas, B, hB, hopen, hhas, rfl⟩

theorem nodup_of_visits {p : Program} (hp : p.DistinctFunctions) {frame : Option Frame} {S : Stmt}
    (h : Visits (.call (.program p)) {} (.call (.stmt frame b S)) s) : (functionIds S.scopes).Nodup := by
  obtain ⟨fs₁, cs₁, fs₂, cs₂, -, hwithin, hsub, -⟩ := h.within (within_program p)
  cases hwithin
  exact (List.nodup_append.1 (hsub.nodup hp)).2.1

end Lowering

namespace Block

variable {B C : Block} {t : Option ValueType}

/-- The code that follows finds in `C` what it would find in `B`: as many operands, a return slot of
the same type or none, the same variables, and values of all variables that had one. Only the new
variables come after them. -/
structure Upholds (B : Block) (new : List String) (C : Block) : Prop where
  isOpen : C.isTerminated = false
  depth : C.locals.stack.length = B.locals.stack.length
  slot : C.locals.returnSlot.map C.typeOf? = B.locals.returnSlot.map B.typeOf?
  scope : ∃ Δ : List (String × ValueType), Δ.map Prod.fst = new ∧ C.scope = B.scope ++ Δ
  held : ∀ name, B.locals.holds name = true → C.locals.holds name = true

theorem HasSlot.map_typeOf (h : B.HasSlot t) : B.locals.returnSlot.map B.typeOf? = t.map some := by
  unfold HasSlot HasTypes at h
  cases hr : B.locals.returnSlot with
  | none => cases t <;> simp_all
  | some r => cases t <;> simp_all

end Block

theorem Graph.Staged.upholds {g : Graph} {B : Block} {c : BlockId} {Δ : List (String × ValueType)}
    (h : g.Staged c B.shape (B.scope ++ Δ)) (hB : B.Has B.shape) :
    ∃ C, g.block? c = some C ∧ B.Upholds (Δ.map Prod.fst) C := by
  obtain ⟨C, hC, hopen, hhas, hscope⟩ := h
  have hslot : C.HasSlot B.shape.slot := hhas.slot
  have hslot' : B.HasSlot B.shape.slot := hB.slot
  refine ⟨C, hC, hopen, hhas.depth, hslot.map_typeOf.trans hslot'.map_typeOf.symm, ⟨Δ, rfl, hscope⟩,
    fun name hname => hhas.held name (List.mem_filter.2 ⟨?_, hname⟩)⟩
  obtain ⟨e, he, rfl, -⟩ := Locals.holds_iff.1 hname
  exact List.mem_map_of_mem he

namespace Program

open Lowering

/-- **Scopes and operands are kept.** Wherever lowering is, an expression leads from an open block to
one that upholds it, with a register for the value. A statement leads to one that upholds it, with the
variables that the statement introduces. If it leads to none, its block and all the new ones are
closed, or they wait for the end of a loop. The loops around it are the same, but for blocks that begin
to wait. -/
theorem lower_discipline {p : Program} (hp : p.DistinctFunctions) :
    (∀ {α : Type} (d : Plan α) b e s c s' B, Visits (.call (.program p)) {} d s →
      s.graph.block? b = some B → B.isTerminated = false → Runs (lowerExpr b e) s c s' →
      s'.loops = s.loops ∧
        ∃ C, s'.graph.block? c = some C ∧ B.Upholds [] C ∧ 0 < C.registerCount) ∧
    ∀ frame b S s o s' B, p.Performs (.stmt frame b S) s o s' →
      s.graph.block? b = some B → B.isTerminated = false →
      (∀ c ∈ o, ∃ C, s'.graph.block? c = some C ∧ B.Upholds S.introduces C) ∧
      (∀ c C, (c = b ∨ s.graph.block? c = none) → s'.graph.block? c = some C →
        c ∈ o ∨ C.isTerminated = true ∨ ∃ f ∈ s'.loops, c ∈ f.targets.waiting) ∧
      LoopsGrow s.loops s'.loops := by
  constructor
  · intro α d b e s c s' B hvisit hB hopen hrun
    obtain ⟨hhas, hb⟩ := (sound_of_visits hvisit).staged hB hopen
    have hc : s'.graph.Staged c B.shape (B.scope ++ []) := by
      simpa using moulds_lowerExpr b 0 e hrun B.shape B.scope hb
    obtain ⟨C, hC, hupholds⟩ := hc.upholds hhas
    obtain ⟨C', hC', hregisters⟩ := delivers_lowerExpr b e hrun
    obtain rfl := Option.some.inj (hC.symm.trans hC')
    exact ⟨(leads_lowerExpr b e hrun).loops, C, hC, hupholds, hregisters⟩
  · intro frame b S s o s' B h hB hopen
    obtain ⟨hvisit, hrun⟩ := h
    have hnodup := nodup_of_visits hp hvisit
    obtain ⟨hhas, hb⟩ := (sound_of_visits hvisit).staged hB hopen
    have hleft := bequeaths_lowerStmt S hnodup hrun hb
    have hshift := shifts_lowerStmt S hnodup hrun
    refine ⟨fun c hc => ?_, fun c C hc hC => hshift.closed ⟨B, hB, hopen⟩ hc hC, hshift.loops⟩
    obtain ⟨Δ, hnames, hstaged⟩ := hleft.goes c hc
    exact hnames ▸ hstaged.upholds hhas

def escaping : Program :=
  let x := Sample.byteVar "x"
  let y := Sample.byteVar "y"
  ⟨{ statements := [
      Sample.define Sample.byte "x" (some (Expr.ofU8 1)),
      .loop .testLast none (Expr.mkCompare .lt x (Expr.ofU8 9)) { statements := [
        Sample.define Sample.byte "y" (some x),
        .cond (Expr.mkCompare .eq x y) (some { statements := [.jump .leave none] }) none,
        .expr (Expr.mkAssign x y)] }] }⟩

theorem lower_discipline_escaping :
    escaping.DistinctFunctions ∧
    (∃ B c s C, initial.graph.block? ⟨0⟩ = some B ∧ Runs (lowerExpr ⟨0⟩ (Expr.ofU8 1)) initial c s ∧
      s.graph.block? c = some C ∧ B.Upholds [] C ∧ 0 < C.registerCount) ∧
    ∃ S loop c s d s' B C D, escaping.body.statements = [S, loop] ∧
      escaping.Performs (.stmt none ⟨0⟩ S) initial (some c) s ∧
      escaping.Performs (.stmt none c loop) s (some d) s' ∧
      initial.graph.block? ⟨0⟩ = some B ∧ s.graph.block? c = some C ∧ s'.graph.block? d = some D ∧
      B.Upholds ["x"] C ∧ C.Upholds [] D := by
  have hp : escaping.DistinctFunctions := by decide
  obtain ⟨hexpr, hstmt⟩ := lower_discipline hp
  have hnone : Runs (lowerScope none ⟨0⟩ {}) initial (some ⟨0⟩) initial := rfl
  have hvisit : Visits (.call (.program escaping)) {} (.call (.stmts none ⟨0⟩ escaping.body.statements))
      initial :=
    (visits_body escaping).trans (visits_scope _ hnone)
  obtain ⟨⟨e, s₀⟩, he⟩ := exists_eq_ok
    (x := ((lowerExpr ⟨0⟩ (Expr.ofU8 1)).run initial).result) (by decide +kernel)
  obtain ⟨⟨o, s₁⟩, ho⟩ := exists_eq_ok
    (x := ((lowerStmts none ⟨0⟩ escaping.body.statements).run initial).result) (by decide +kernel)
  obtain ⟨o₁, s, hdefine, h⟩ := Runs.bind_iff.1 (show Runs _ _ _ _ from ho)
  obtain ⟨c, rfl⟩ := Option.isSome_iff_exists.1 ((follows_lowerStmt _ hdefine).past.trans (by decide))
  obtain ⟨o₂, s', hloop, -⟩ := Runs.bind_iff.1 h
  obtain ⟨d, rfl⟩ := Option.isSome_iff_exists.1 ((follows_lowerStmt _ hloop).past.trans (by decide))
  have hfirst : escaping.Performs (.stmt none ⟨0⟩ _) initial (some c) s :=
    ⟨hvisit.trans (.enter (.first .refl)), hdefine⟩
  have hsecond : escaping.Performs (.stmt none c _) s (some d) s' :=
    ⟨hvisit.trans (.enter (.after hdefine (.enter (.first .refl)))), hloop⟩
  let B : Block := { id := ⟨0⟩, parameters := [] }
  obtain ⟨-, E, hE, hupholds, hregisters⟩ := hexpr _ _ _ _ _ _ B hvisit rfl rfl he
  obtain ⟨C, hC, hBC⟩ := (hstmt _ _ _ _ _ _ B hfirst rfl rfl).1 c rfl
  obtain ⟨D, hD, hCD⟩ := (hstmt _ _ _ _ _ _ C hsecond hC hBC.isOpen).1 d rfl
  exact ⟨hp, ⟨B, e, s₀, E, rfl, he, hE, hupholds, hregisters⟩, _, _, c, s, d, s', B, C, D, rfl, hfirst,
    hsecond, rfl, hC, hD, hBC, hCD⟩

end Program

end BlockGraph

import BlockGraph.Proofs.Course.Discipline
import BlockGraph.Proofs.Initialization.Expressions

namespace BlockGraph

namespace Block

variable {B : Block} {c d : BlockId}

theorem jumps_of_open (h : B.isTerminated = false) : B.jumps = [] := by
  have hnone : B.terminator = none := by
    cases ht : B.terminator with
    | none => rfl
    | some t => simp [isTerminated, ht] at h
  simp [jumps, hnone]

theorem eq_of_mem_jumps_goto {ts : List ValueType} {args : List Register}
    (h : c ∈ ((B.refer d ts).close (.goto ⟨⟨B.registerCount⟩, args⟩)).jumps) : c = d := by
  obtain ⟨e, he, hc⟩ := List.mem_filterMap.1 h
  obtain rfl : e = ⟨⟨B.registerCount⟩, args⟩ := by simpa [Terminator.edges] using he
  exact Option.some.inj (hc.symm.trans (B.staticTarget?_refer d ts))

end Block

namespace Graph

def Loses (g : Graph) (c : BlockId) (name : String) : Prop :=
  (∃ Q ∈ g.blocks, c ∈ Q.jumps ∧ Q.locals.holds name = true) ∧
    ∃ R ∈ g.blocks, c ∈ R.jumps ∧ R.locals.holds name = false

instance (g : Graph) (c : BlockId) (name : String) : Decidable (g.Loses c name) :=
  inferInstanceAs (Decidable (_ ∧ _))

def Jumps (g : Graph) (q c : BlockId) : Prop := ∃ Q, g.block? q = some Q ∧ c ∈ Q.jumps

variable {g : Graph} {b q c : BlockId}

theorem exists_jumps_of_mem {Q : Block} {name : String} {held : Bool} (hQ : Q ∈ g.blocks)
    (hc : c ∈ Q.jumps) (hheld : Q.locals.holds name = held) :
    ∃ q, g.Jumps q c ∧ (g.symbols q).holds name = held := by
  obtain ⟨n, hn⟩ := List.mem_iff_getElem?.1 hQ
  have hQ : g.block? ⟨n⟩ = some Q := hn
  refine ⟨⟨n⟩, ⟨Q, hQ, hc⟩, ?_⟩
  rw [symbols, hQ]
  exact hheld

theorem Checked.not_jumps (h : g.Checked) (hc : g.block? c = none) : ¬g.Jumps q c := by
  rintro ⟨Q, hQ, hjump⟩
  obtain ⟨i, hi, hi'⟩ := List.mem_filterMap.1
    (Block.mem_referenced_of_successors (List.mem_append_left _ hjump))
  obtain ⟨C, hC, -⟩ := (h q Q hQ).2.references i hi c hi'
  simp [hc] at hC

theorem holds_symbols_iff {name : String} : (g.symbols q).holds name = true ↔ g.HasValue q name := by
  cases hq : g.block? q with
  | none => simp [symbols, HasValue, hq]; rfl
  | some Q => simp [symbols, HasValue, hq]; rfl

theorem exists_of_mem_symbols {name : String} (h : name ∈ (g.symbols b).keys) :
    ∃ B, g.block? b = some B := by
  cases hb : g.block? b with
  | none =>
    rw [symbols, hb] at h
    cases h
  | some B => exact ⟨B, rfl⟩

theorem Maintains.subset {g' : Graph} (h : g.Maintains g') (b : BlockId) :
    (g.symbols b).keys ⊆ (g'.symbols b).keys := by
  intro name hname
  obtain ⟨B, hB⟩ := exists_of_mem_symbols hname
  obtain ⟨B', hB', hnames⟩ := h.names b B hB
  simp only [symbols, hB, hB', Option.elim_some] at hname ⊢
  exact hnames hname

theorem Staged.names {σ : Shape} {Γ : List (String × ValueType)} (h : g.Staged b σ Γ) :
    (g.symbols b).keys = Γ.map Prod.fst := by
  obtain ⟨B, hB, -, -, rfl⟩ := h
  simp [symbols, hB, Block.scope, OrderedMap.keys]

end Graph

namespace Builder

open Origins.Fits

variable {b c d q context : BlockId} {preds : List BlockId} {s s' : Builder} {u : Unit} {name : String}

def Reports (s : Builder) (c : BlockId) (names : List String) : Prop :=
  ∀ name ∈ names, ∀ q r, s.graph.Jumps q c → s.graph.Jumps r c →
    (s.graph.symbols q).holds name = true → (s.graph.symbols r).holds name = false →
    .lossOfValue name ∈ s.diagnostics

theorem Reports.mono {names names' : List String} (h : s.Reports c names) (hsub : names' ⊆ names) :
    s.Reports c names' :=
  fun name hname => h name (hsub hname)

theorem jumps_updateBlock {f : Block → Block} (h : (s.updateBlock b f).graph.Jumps q c) :
    s.graph.Jumps q c ∨ q = b ∧ ∃ B, s.graph.block? b = some B ∧ c ∈ (f B).jumps := by
  obtain ⟨Q, hQ, hc⟩ := h
  rw [updateBlock_block?] at hQ
  split at hQ
  case isTrue hq =>
    obtain ⟨B, hB, rfl⟩ := Option.map_eq_some_iff.1 hQ
    exact .inr ⟨hq, B, hq ▸ hB, hc⟩
  case isFalse => exact .inl ⟨Q, hQ, hc⟩

theorem Reports.update {f : Block → Block} {names : List String} (h : s.Reports c names)
    (hsymbols : ∀ B, s.graph.block? b = some B → (f B).locals.symbols = B.locals.symbols)
    (hjumps : ∀ B, s.graph.block? b = some B → c ∉ (f B).jumps) :
    (s.updateBlock b f).Reports c names := by
  intro name hname q r hq hr hvalue hnone
  have hjump {q : BlockId} (hq : (s.updateBlock b f).graph.Jumps q c) : s.graph.Jumps q c := by
    rcases jumps_updateBlock hq with hq | ⟨-, B, hB, hc⟩
    · exact hq
    · exact absurd hc (hjumps B hB)
  rw [symbols_updateBlock hsymbols] at hvalue hnone
  exact h name hname q r (hjump hq) (hjump hr) hvalue hnone

theorem jumps_of_forM (hrun : Runs (preds.forM (jump · d)) s u s') :
    s'.diagnostics = s.diagnostics ∧
      ∀ q c, s'.graph.Jumps q c → s.graph.Jumps q c ∨ q ∈ preds := by
  induction preds generalizing s with
  | nil =>
    obtain rfl := Runs.forM_nil.1 hrun
    exact ⟨rfl, fun q c h => .inl h⟩
  | cons p preds ih =>
    obtain ⟨t, hp, hrest⟩ := Runs.forM_cons.1 hrun
    obtain ⟨hreports, hjumps⟩ := ih hrest
    obtain ⟨_, _, _, -, -, -, -, -, rfl⟩ := runs_jump.1 hp
    refine ⟨hreports, fun q c h => ?_⟩
    rcases hjumps q c h with h | hq
    · exact (jumps_updateBlock h).imp_right fun ⟨hq, _⟩ => by simp [hq]
    · exact .inr (List.mem_cons_of_mem p hq)

theorem jumps_of_newChild (hrun : Runs (newChild context preds) s d s') (h : s'.graph.Jumps q c) :
    s.graph.Jumps q c := by
  obtain ⟨i, -, rfl, rfl⟩ := runs_newChild.1 hrun
  obtain ⟨Q, hQ, hc⟩ := h
  rw [addChild_block?] at hQ
  split at hQ
  · obtain rfl := Option.some.inj hQ
    simp [Block.jumps, Inflow.block] at hc
  · exact ⟨Q, hQ, hc⟩

theorem reports_newChild (hrun : Runs (newChild context preds) s c s')
    (hname : name ∈ (s.graph.symbols context).keys) {r : BlockId} (hq : q ∈ preds) (hr : r ∈ preds)
    (hvalue : (s'.graph.symbols q).holds name = true) (hnone : (s'.graph.symbols r).holds name = false) :
    .lossOfValue name ∈ s'.diagnostics := by
  obtain ⟨-, hne, hkept, -⟩ := newChild_new hrun
  rw [Graph.symbols_congr (hkept q (hne q hq))] at hvalue
  rw [Graph.symbols_congr (hkept r (hne r hr))] at hnone
  obtain ⟨i, hgather, rfl, rfl⟩ := runs_newChild.1 hrun
  have hkey : name ∈ i.symbols.keys := by
    obtain ⟨C, hC, hsymbols, -⟩ := hgather.context
    simpa [Graph.symbols, hC, hsymbols] using hname
  refine List.mem_append_right _ (List.mem_map_of_mem (List.mem_filter.2 ⟨hkey, ?_⟩))
  have hsome : s.graph.someHold preds name = true :=
    Graph.someHold_iff.2 ⟨q, hq, Graph.holds_symbols_iff.1 hvalue⟩
  have hnot : s.graph.allHold preds name = false := by
    refine Bool.eq_false_iff.2 fun hall => ?_
    have hholds := Graph.holds_symbols_iff.2 (Graph.allHold_iff.1 hall r hr)
    simp [hnone] at hholds
  rw [hgather.held, hsome, hnot]
  rfl

theorem reports_converge (hs : s.graph.Checked) (hrun : Runs (converge context preds) s c s') :
    s'.Reports c (s.graph.symbols context).keys := by
  have hfresh := Lowering.converge_fresh hrun
  simp only [converge, Runs.bind_iff, Runs.pure_iff] at hrun
  obtain ⟨_, t, hchild, _, _, hjumps, rfl, rfl⟩ := hrun
  obtain ⟨hreports, hfrom⟩ := jumps_of_forM hjumps
  have hpred (q : BlockId) (hq : s'.graph.Jumps q c) : q ∈ preds := by
    refine (hfrom q c hq).resolve_left fun hq => ?_
    exact hs.not_jumps hfresh (jumps_of_newChild hchild hq)
  intro name hname q r hq hr hvalue hnone
  rw [symbols_jumps hjumps] at hvalue hnone
  rw [hreports]
  exact reports_newChild hchild hname (hpred q hq) (hpred r hr) hvalue hnone

theorem reports_convergeBranch {r : Register} (hs : s.graph.Checked)
    (hrun : Runs (convergeBranch context preds b r) s (c, d) s') :
    s'.Reports d (s.graph.symbols context).keys := by
  obtain ⟨-, hfresh, -⟩ := Lowering.convergeBranch_fresh hrun
  simp only [convergeBranch, Runs.bind_iff, Runs.pure_iff, Prod.mk.injEq] at hrun
  obtain ⟨_, t, hc, _, t', hd, _, t'', hjumps, _, _, hbranch, ⟨rfl, rfl⟩, rfl⟩ := hrun
  obtain ⟨hreports, hfrom⟩ := jumps_of_forM hjumps
  obtain ⟨_, _, _, _, _, -, -, -, -, -, -, -, -, hs'⟩ := runs_branchTo.1 hbranch
  have hpred (q : BlockId) (hq : s'.graph.Jumps q d) : q ∈ b :: preds := by
    rw [hs'] at hq
    rcases jumps_updateBlock hq with hq | ⟨rfl, -⟩
    · refine List.mem_cons_of_mem b ((hfrom q d hq).resolve_left fun hq => ?_)
      exact hs.not_jumps hfresh (jumps_of_newChild hc (jumps_of_newChild hd hq))
    · exact List.mem_cons_self
  have hsame (e : BlockId) : s'.graph.symbols e = t'.graph.symbols e := by
    rw [hs']
    exact (symbols_updateBlock (fun B _ => by rfl) e).trans (symbols_jumps hjumps e)
  intro name hname q r hq hr hvalue hnone
  rw [hsame] at hvalue hnone
  rw [hs', updateBlock_diagnostics, hreports]
  exact reports_newChild hd ((maintains_newChild hc).subset context hname) (hpred q hq) (hpred r hr) hvalue
    hnone

end Builder

namespace Lowering

open Builder

variable {frame : Option Frame} {b c : BlockId} {s s' : State} {condition : Expr}

def StaysClosed (b : BlockId) (s : State) (c : BlockId) (s' : State) : Prop :=
  ∀ B, s.graph.block? b = some B → B.isTerminated = true →
    ∃ C, s'.graph.block? c = some C ∧ C.isTerminated = true

theorem staysClosed_of_extends (h : s.graph.Extends s'.graph) : StaysClosed b s b s' := by
  intro B hB hclosed
  obtain ⟨C, hC, hext⟩ := h b B hB
  obtain ⟨-, hterminator, hfinal⟩ := hext.closed hclosed
  exact ⟨C, hC, by simpa [Block.isTerminated, hterminator, hfinal] using hclosed⟩

theorem isOpen_of_branch {r : Register} {p : BlockId × BlockId} {t t' : Builder}
    (h : Runs (branch b r) t p t') : t.graph.IsOpen b := by
  simp only [branch, Runs.bind_iff] at h
  obtain ⟨c, t₁, hc, d, t₂, hd, _, _, hbranch, -⟩ := h
  obtain ⟨B, _, _, _, _, hB, -, -, hopen, -⟩ := runs_branchTo.1 hbranch
  obtain ⟨hne, -, hkept, -⟩ := Origins.Fits.newChild_new hc
  obtain ⟨hne', -, hkept', -⟩ := Origins.Fits.newChild_new hd
  exact ⟨B, by rw [← hkept b hne, ← hkept' b hne', hB], hopen⟩

instance : Lowers StaysClosed where
  refl _ _ B hB hclosed := ⟨B, hB, hclosed⟩
  trans h k B hB hclosed := by
    obtain ⟨C, hC, hclosed'⟩ := h B hB hclosed
    exact k C hC hclosed'
  stays h _ _ _ hrun := by
    obtain ⟨t, ht, rfl⟩ := Runs.lift_build_iff.1 hrun
    exact staysClosed_of_extends (h ht).graph_extends
  settles h _ _ _ hrun := by
    obtain ⟨t, ht, rfl⟩ := h hrun
    exact staysClosed_of_extends ht.graph_extends
  refer _ h := staysClosed_of_extends (moves_emitRef h).graph_extends
  call h B hB hclosed := by
    obtain ⟨k, p, t, hbegins, -, -, hsus, -⟩ := runs_lowerCall h
    obtain ⟨B', rest, hB', -, hcaller⟩ := hbegins.block
    obtain rfl := Option.some.inj (hB.symm.trans hB')
    have hopen := hsus.open_
    simp [hcaller, hclosed] at hopen
  choose _ hbranch _ _ _ B hB hclosed := by
    obtain ⟨B', hB', hopen⟩ := isOpen_of_branch hbranch
    obtain rfl := Option.some.inj (hB.symm.trans hB')
    simp [hclosed] at hopen

theorem isOpen_of_tested {e : Expr} {r : Register} {p : BlockId × BlockId} {t : Builder} {B : Block}
    (hB : s.graph.block? b = some B) (he : Runs (lowerExpr b e) s c s')
    (hbranch : Runs (branch c r) s'.toBuilder p t) : s.graph.IsOpen b := by
  refine ⟨B, hB, Bool.eq_false_iff.2 fun hclosed => ?_⟩
  obtain ⟨C, hC, hclosed'⟩ := traces_lowerExpr (R := StaysClosed) b e he B hB hclosed
  obtain ⟨C', hC', hopen⟩ := isOpen_of_branch hbranch
  obtain rfl := Option.some.inj (hC.symm.trans hC')
  simp [hclosed'] at hopen

theorem State.Sound.names_lowerExpr {e : Expr} (hs : s.Sound) (hopen : s.graph.IsOpen b)
    (h : Runs (lowerExpr b e) s c s') : (s'.graph.symbols c).keys = (s.graph.symbols b).keys := by
  obtain ⟨B, hB, hopen⟩ := hopen
  obtain ⟨-, hb⟩ := hs.staged hB hopen
  exact (moulds_lowerExpr b 0 e h B.shape B.scope hb).names.trans hb.names.symm

theorem reports_joins {preds : List BlockId} (hs : s.graph.Checked)
    (h : Joins b preds s (some c) s') : s'.toBuilder.Reports c (s.graph.symbols b).keys := by
  rcases h with ⟨-, ⟨⟩, -⟩ | ⟨-, _, t, hconverge, ⟨⟩, rfl⟩
  exact reports_converge hs hconverge

theorem reports_closeLoop {inside : BlockId} {I : Block} {leaving repeating : List BlockId}
    (hs : s.Sound) (hinside : s.graph.block? inside = some I)
    (h : Runs (closeLoop b inside condition leaving repeating) s (some c) s') :
    s'.toBuilder.Reports c (s.graph.symbols b).keys := by
  rcases closeLoop_cases h with ⟨-, t, ht, hjoin⟩ | ⟨-, -, d, t, t', hconverge, hjump, hjoin⟩ |
    ⟨-, -, d, t, tested, s₁, r, again, out, t₁, t₂, hconverge, htest, -, hbranch, hjump, ⟨⟩, rfl⟩
  · have hgraph : t.graph = s.graph := by
      rcases ht with rfl | hreport
      · rfl
      · rw [runs_report.1 hreport]
    rw [← hgraph]
    exact reports_joins (by rw [hgraph]; exact hs.checked) hjoin
  · have hback := (Proceeds.converge hconverge).trans (.jump (s := { s with toBuilder := t }) hjump)
    exact (reports_joins (hback.sound hs).checked hjoin).mono (hback.locals.subset b)
  · have hcode := (Proceeds.converge hconverge).trans ((within_expr d condition).proceeds htest)
    obtain ⟨I', hI', -⟩ := hcode.graph inside I hinside
    have hne : c ≠ inside := by
      rintro rfl
      simp [(convergeBranch_fresh hbranch).2.1] at hI'
    obtain ⟨_, _, _, -, -, -, -, -, rfl⟩ := runs_jump.1 hjump
    have hreports := (reports_convergeBranch (hcode.sound hs).checked hbranch).mono (hcode.locals.subset b)
    exact hreports.update (fun _ _ => rfl) fun _ _ hc => hne (Block.eq_of_mem_jumps_goto hc)

theorem reports_cond {first second : Option Scope} {B : Block} (hs : s.Sound)
    (hB : s.graph.block? b = some B)
    (h : Runs (lowerStmt frame b (.cond condition first second)) s (some c) s') :
    s'.toBuilder.Reports c (s.graph.symbols b).keys := by
  obtain ⟨d, s₁, r, onTrue, onFalse, t, first', s₂, second', s₃, hcond, hlast, hbranch, hfirst, hsecond,
    hjoin⟩ := lowerStmt_cond h
  have hs₁ := ((within_expr b condition).proceeds hcond).sound hs
  have harms := ((Proceeds.branch hlast hbranch).trans ((within_arm frame onTrue first).proceeds hfirst)).trans
    ((within_arm frame onFalse second).proceeds hsecond)
  rw [← hs.names_lowerExpr (isOpen_of_tested hB hcond hbranch) hcond]
  exact (reports_joins (harms.sound hs₁).checked hjoin).mono (harms.locals.subset d)

theorem reports_loop {kind : LoopKind} {label : Option String} {body : Scope} {B : Block}
    (hs : s.Sound) (hB : s.graph.block? b = some B)
    (hkind : ¬(kind = .testFirst && !condition.isTrue) = true)
    (h : Runs (lowerStmt frame b (.loop kind label condition body)) s (some c) s') :
    s'.toBuilder.Reports c (s.graph.symbols b).keys := by
  obtain ⟨inside, t, bottom, s₂, label', leaving, repeating, ls, henter, hbody, -, hclose⟩ :=
    lowerStmt_queued hkind h
  have hstart := (Proceeds.converge (runs_enter.1 henter)).trans
    (.withLoops _ (⟨label, .queued [] []⟩ :: s.loops))
  have hbody' := ((within_scope frame inside body).proceeds hbody).trans (.withLoops s₂ ls)
  obtain ⟨I, hI⟩ : ∃ I, t.graph.block? inside = some I := by
    rcases (moves_enter henter).fresh inside (by simp) with hin | ⟨-, hsome⟩
    · obtain rfl : inside = b := by simpa using hin
      simp [converge_fresh (runs_enter.1 henter)] at hB
    · exact Option.ne_none_iff_exists'.1 hsome
  obtain ⟨I', hI', -⟩ := hbody'.graph inside I hI
  exact (reports_closeLoop (hbody'.sound (hstart.sound hs)) hI' hclose).mono
    ((hstart.trans hbody').locals.subset b)

theorem reports_conditional {first second : Expr} (type : SourceType) {B : Block}
    (hs : s.Sound) (hB : s.graph.block? b = some B)
    (h : Runs (lowerExpr b (.conditional condition first second type)) s c s') :
    s'.toBuilder.Reports c (s.graph.symbols b).keys := by
  rw [lowerExpr] at h
  simp only [Runs.bind_iff, Runs.lift_build_iff, Runs.pure_iff] at h
  obtain ⟨d, s₁, hcond, r, _, ⟨t, hlast, rfl⟩, ⟨onTrue, onFalse⟩, _, ⟨t₁, hbranch, rfl⟩, d₁, s₂, hfirst, _, _,
    ⟨t₂, hpush, rfl⟩, d₂, s₃, hsecond, _, _, ⟨t₃, hpush', rfl⟩, e, _, ⟨t₄, hmerge, rfl⟩, r', _, ⟨t₅, hpop, rfl⟩,
    r'', _, ⟨t₆, hcopy, rfl⟩, rfl, rfl⟩ := h
  have hs₁ := ((within_expr b condition).proceeds hcond).sound hs
  have hfirst' : Proceeds [] [] _ { s₂ with toBuilder := t₂ } :=
    ((within_expr onTrue first).proceeds hfirst).trans (.of_edits .pushLast hpush)
  have hsecond' : Proceeds [] [] _ { s₃ with toBuilder := t₃ } :=
    ((within_expr onFalse second).proceeds hsecond).trans (.of_edits .pushLast hpush')
  have harms := ((Proceeds.branch hlast hbranch).trans hfirst').trans hsecond'
  have hmerged := (reports_converge (harms.sound hs₁).checked hmerge).mono (harms.locals.subset d)
  obtain ⟨-, -, -, rfl⟩ := runs_lastRegister.1 hlast
  rw [hs.names_lowerExpr (isOpen_of_tested hB hcond hbranch) hcond] at hmerged
  obtain ⟨C, rest, hC, -, rfl⟩ := runs_pop.1 hpop
  obtain ⟨C', type, hC', hopen, -, -, rfl⟩ := runs_copy.1 hcopy
  obtain rfl := Option.some.inj ((updateBlock_self hC _).symm.trans hC')
  -- the new block is still open, so it leads nowhere
  have hnone (D : Block) (h : D.isTerminated = false) : c ∉ D.jumps := by
    simp [Block.jumps_of_open h]
  refine (hmerged.update (fun D hD => ?_) fun D hD => ?_).update (fun D hD => rfl) fun D hD => ?_
  · obtain rfl := Option.some.inj (hC.symm.trans hD)
    rfl
  · obtain rfl := Option.some.inj (hC.symm.trans hD)
    exact hnone _ hopen
  · obtain rfl := Option.some.inj (hC'.symm.trans hD)
    exact hnone _ hopen

end Lowering

/-- Where the paths of a statement meet, they are all there already. A loop that is tested first has its
exit before its body is lowered, and with it the jumps out of it. -/
def Stmt.merges : Stmt → Bool
  | .cond _ _ _ => true
  | .loop kind _ condition _ => !(kind = .testFirst && !condition.isTrue)
  | _ => false

namespace Program

open Lowering

variable {p : Program} {L : Lowered}

theorem Performs.reports {α : Type} {x : Lowering.Task α} {a : α} {b c : BlockId} {s s' : State}
    {name : String} (hx : p.Performs x s a s') (h : p.lower.result = .ok L)
    (hreports : s'.toBuilder.Reports c (s.graph.symbols b).keys)
    (hname : name ∈ (s.graph.symbols b).keys) (hlost : s'.graph.Loses c name) :
    .lossOfValue name ∈ L.diagnostics := by
  obtain ⟨⟨Q, hQ, hq, hvalue⟩, R, hR, hr, hnone⟩ := hlost
  obtain ⟨q, hq, hvalue⟩ := Graph.exists_jumps_of_mem hQ hq hvalue
  obtain ⟨r, hr, hnone⟩ := Graph.exists_jumps_of_mem hR hr hnone
  obtain ⟨entry, s₁, hrun, rfl⟩ := lower_eq_ok.1 h
  obtain ⟨fs, cs, hproceeds⟩ := hx.1.proceeds_end (within_program p) hx.2 hrun
  exact hproceeds.diagnostics (hreports name hname q r hq hr hvalue hnone)

/-- **No value gets lost in silence.** Where the paths of a conditional or of a loop meet, every
variable from before is reported that has a value on some of the paths only. The exception is a loop
that is tested first. -/
theorem lower_reports_losses (h : p.lower.result = .ok L) :
    (∀ b condition first second type s c s' name,
      p.Performs (.expr b (.conditional condition first second type)) s c s' →
      name ∈ (s.graph.symbols b).keys → s'.graph.Loses c name → .lossOfValue name ∈ L.diagnostics) ∧
    ∀ frame b S s c s' name, S.merges = true → p.Performs (.stmt frame b S) s (some c) s' →
      name ∈ (s.graph.symbols b).keys → s'.graph.Loses c name → .lossOfValue name ∈ L.diagnostics := by
  constructor
  · intro b condition first second type s c s' name hx hname hlost
    obtain ⟨B, hB⟩ := Graph.exists_of_mem_symbols hname
    exact hx.reports h (reports_conditional type (sound_of_visits hx.1) hB hx.2) hname hlost
  · intro frame b S s c s' name hmerges hx hname hlost
    obtain ⟨B, hB⟩ := Graph.exists_of_mem_symbols hname
    have hs := sound_of_visits hx.1
    refine hx.reports h ?_ hname hlost
    cases S with
    | cond condition first second => exact reports_cond hs hB hx.2
    | loop kind label condition body =>
      refine reports_loop hs hB ?_ hx.2
      simpa only [Stmt.merges, Bool.not_eq_true', Bool.not_eq_true] using hmerges
    | _ => simp [Stmt.merges] at hmerges

def unset (S : Stmt) : Program := ⟨{ statements := [Sample.define Sample.byte "x" none, S] }⟩

def setsOnSome (S : Stmt) : Bool :=
  match ((lowerScope none ⟨0⟩ { statements := [Sample.define Sample.byte "x" none] }).run initial).result with
  | .ok (some b, s) =>
    match ((lowerStmt none b S).run s).result with
    | .ok (some c, s') => decide ("x" ∈ (s.graph.symbols b).keys ∧ s'.graph.Loses c "x")
    | _ => false
  | _ => false

theorem exists_of_setsOnSome {S : Stmt} (h : setsOnSome S = true) :
    ∃ b s c s', (unset S).Performs (.stmt none b S) s (some c) s' ∧
      "x" ∈ (s.graph.symbols b).keys ∧ s'.graph.Loses c "x" := by
  unfold setsOnSome at h
  split at h
  case h_1 b s hdefine =>
    split at h
    case h_1 c s' hrun =>
      obtain ⟨hname, hlost⟩ := of_decide_eq_true h
      have hvisit : Visits (.call (.program (unset S))) {} (.call (.stmts none b [S])) s :=
        (visits_body (unset S)).trans (visits_scope [S] hdefine)
      exact ⟨b, s, c, s', ⟨hvisit.trans (.enter (.first .refl)), hrun⟩, hname, hlost⟩
    case h_2 => simp at h
  case h_2 => simp at h

def set : Stmt := .expr (Expr.mkAssign (Sample.byteVar "x") (Expr.ofU8 1))

def condition : Expr := Expr.mkCompare .lt (Expr.ofU8 1) (Expr.ofU8 2)

def setting : Stmt := .cond condition (some { statements := [set] }) none

theorem lower_reports_losses_setting :
    ∃ L b s c s', (unset setting).lower.result = .ok L ∧
      (unset setting).Performs (.stmt none b setting) s (some c) s' ∧
      "x" ∈ (s.graph.symbols b).keys ∧ s'.graph.Loses c "x" ∧ .lossOfValue "x" ∈ L.diagnostics := by
  obtain ⟨L, hL⟩ := exists_eq_ok (x := (unset setting).lower.result) (by decide +kernel)
  obtain ⟨b, s, c, s', hx, hname, hlost⟩ := exists_of_setsOnSome (S := setting) (by decide +kernel)
  exact ⟨L, b, s, c, s', hL, hx, hname, hlost,
    (lower_reports_losses hL).2 none b setting s c s' "x" rfl hx hname hlost⟩

def leaving : Stmt := Sample.whileLoop condition [set, .jump .leave none]

theorem loses_silently_leaving :
    ∃ L b s c s', (unset leaving).lower.result = .ok L ∧
      (unset leaving).Performs (.stmt none b leaving) s (some c) s' ∧
      "x" ∈ (s.graph.symbols b).keys ∧ s'.graph.Loses c "x" ∧ L.diagnostics = [] := by
  obtain ⟨b, s, c, s', hx, hname, hlost⟩ := exists_of_setsOnSome (S := leaving) (by decide +kernel)
  have hlower : (match (unset leaving).lower.result with
      | .ok L => L.diagnostics.isEmpty
      | .error _ => false) = true := by decide +kernel
  split at hlower
  case h_1 L hL =>
    exact ⟨L, b, s, c, s', hL, hx, hname, hlost, List.isEmpty_iff.1 hlower⟩
  case h_2 => simp at hlower

end Program

end BlockGraph

import BlockGraph.Proofs.Lowering.Nesting
import BlockGraph.Proofs.Simulation.Statements

namespace BlockGraph.Lowering

open Builder Interpretation

variable {I : Interpretation} {L : Lowered} {fs : List FunctionId} {cs : List ClassId}
  {b c inside : BlockId} {s s' s₁ : State} {o : Option BlockId} {w : View I} {before : Contexts I}
  {σ : I.State} {y : (I.machine L).Point} {n : Nat} {vs vs' : I.Variables} {x : I.Eval I.Exit}

theorem simulates_rounds {test : I.Eval Bool} {round : I.Eval I.Round}
    (Enters Ends : I.Variables → I.State → (I.machine L).Point → Prop)
    {R : I.Exit → I.Variables → I.State → (I.machine L).Point → Prop}
    (hentry : ∀ vs σ y, Enters vs σ y → ∃ b args cs, y = .entry b args ⟨σ, cs⟩)
    (hround : ∀ vs σ y, Enters vs σ y → Simulates L (n + 1) y (round vs σ) fun r vs σ y =>
      match r with
      | .next => Ends vs σ y
      | .out exit => R exit vs σ y)
    (hnext : ∀ k ≤ n, ∀ z : I.Eval I.Exit,
      (∀ vs σ y, Enters vs σ y → Simulates L k y (z vs σ) R) → ∀ vs σ y, Ends vs σ y →
        Simulates L (k + 1) y ((do if ← test then z else return .normal) vs σ) R)
    (k : Nat) (hk : k ≤ n + 1) (h : Enters vs σ y) : Simulates L k y (rounds test round k vs σ) R := by
  induction k generalizing vs σ y with
  | zero =>
    obtain ⟨b, args, cs, rfl⟩ := hentry vs σ y h
    exact ⟨0, b, args, cs, Nat.le_refl 0, .refl _⟩
  | succ k ih =>
    refine Simulates.bind ((hround vs σ y h).mono hk) fun r vs₁ σ₁ y₁ hr => ?_
    cases r with
    | out exit => exact .done hr
    -- a run that goes on to the next round has taken a jump, which pays for the fuel
    | next => exact hnext k (by omega) _ (fun _ _ _ => ih (by omega)) vs₁ σ₁ y₁ hr

variable (L) in
def EndsRound (s : State) (bottom : Option BlockId) (f : LoopFrame) (ls : List LoopFrame) (w : View I)
    (before : Contexts I) (r : I.Round) (vs : I.Variables) (σ : I.State) (y : (I.machine L).Point) :
    Prop :=
  match r with
  | .next => ∃ vs', w.vars.Passes vs' vs ∧
      ((∃ c ∈ bottom, s.graph.Yields c { w with vars := vs' } before σ none y) ∨
        f.targets.Catches L s.graph { w with vars := vs' } before σ y .again)
  | .out .normal => ∃ vs', w.vars.Passes vs' vs ∧
      f.targets.Catches L s.graph { w with vars := vs' } before σ y .leave
  | .out exit => exit ≠ .normal ∧ Exits L { s with loops := ls } none w before exit vs σ y

theorem Performs.round (h : Performs L n s b x (ExitsScope L s' o)) {f : LoopFrame}
    {ls : List LoopFrame} (hloops : s'.loops = f :: ls) (hcaller : HasCaller L before w.slot)
    (hvs : w.vars.Keeps vs) (hy : s.graph.Yields b { w with vars := vs } before σ none y) :
    Simulates L (n + 1) y ((do
        let exit ← x
        endRound f.label w.vars exit) vs σ) (EndsRound L s' o f ls w before) := by
  refine Simulates.bind (h (w := { w with vars := vs }) hcaller hy) ?_
  rintro exit _ σ₁ y₁ ⟨vs', ⟨hvs', hexit⟩, rfl⟩
  have hall := hvs.trans hvs'
  cases exit with
  | normal =>
    obtain ⟨c, hc, hy₁⟩ := hexit
    refine .done ⟨vs', fun name hname => ?_, .inl ⟨c, hc, hy₁⟩⟩
    exact hvs'.passes_within name (hvs name hname)
  | ret v => exact .done ⟨by simp, hall, hexit⟩
  | jump j =>
    have hcatch : Catch L s'.graph { w with vars := vs' } before σ₁ y₁ j s'.loops := hexit
    rw [hloops, Catch] at hcatch
    by_cases hj : j.means f.label = true
    · rw [if_pos hj] at hcatch
      simp only [endRound, if_pos hj]
      cases hkind : j.kind with
      | leave =>
        rw [hkind] at hcatch
        exact ⟨0, y₁, .refl _, vs', hall.passes_within, hcatch⟩
      | again =>
        rw [hkind] at hcatch
        exact ⟨0, y₁, .refl _, vs', hall.passes_within, .inr hcatch⟩
    · rw [if_neg hj] at hcatch
      simp only [endRound, if_neg hj]
      exact .done ⟨by simp, hall, hcatch⟩

theorem evalCondition_of_isTrue {q : Program}
    {call : FunctionDecl → List I.Value → I.Eval (Option I.Value)} {e : Expr} (h : e.isTrue = true) :
    evalCondition q call e = (pure true : I.Eval Bool) := by
  unfold Expr.isTrue at h
  split at h
  · funext vs σ
    change choose (I.literal (.bool true)) vs σ = _
    rw [choose, I.truth_literal]
  · simp at h

theorem arrives_of_takes {g g' : Graph} {T : Block} {cs : Contexts I} (hc : g.Awaits c w)
    (hg : g.Extends g') (hT : g'.block? c = some T) (htakes : T.signature.Takes { w with vars := vs' })
    (hvs : w.vars.Passes vs' vs) (hcs : before <+: cs) (σ : I.State) :
    g.Arrives (L := L) c { w with vars := vs } before σ
      (.entry c (T.signature.pass { w with vars := vs' }) ⟨σ, cs⟩) :=
  ⟨_, cs, rfl, hc.receives (w := { w with vars := vs' }) hg hT htakes rfl hvs, hcs⟩

section Code

variable {q : Program} {call : FunctionDecl → List I.Value → I.Eval (Option I.Value)} {e : Expr}
  {bottom : Option BlockId}

theorem simulates_condition {d d' : BlockId} {r : Register} {g : Graph} {t : Builder}
    (he : Realizes L n q call e) (hv : e.type.isVoid = false) (h : Runs (lowerExpr b e) s c s₁)
    (hlast : Runs (lastRegister c) s₁.toBuilder r t) (hs : s.Tidy) (hL : Links L s₁)
    (hsplit : ∀ ⦃vs : I.Variables⦄ ⦃regs : List (Word I)⦄ ⦃v : I.Value⦄ (m : Memory I),
      w.vars.Same vs → s₁.graph.Mirrors c regs { w with vars := vs } →
      regs[r.index]? = some (.plain v) →
      match I.truth v with
      | some side => ∃ args, L.graph.Goes (M := I.machine L) 1 (.inside c regs m)
            (.entry (if side then d else d') args m) ∧
          g.Receives (if side then d else d') args { w with vars := vs }
      | none => ∃ y, L.graph.Goes (M := I.machine L) 0 (.inside c regs m) y ∧ L.graph.Traps y m)
    (hy : s.graph.Yields b w before σ none y) :
    Simulates L (n + 1) y (evalCondition q call e w.vars σ) fun side vs σ' y' =>
      w.vars.Same vs ∧ s₁.graph.Frames c { w with vars := vs } ∧ ∃ z, L.graph.Goes 1 y' z ∧
        g.Arrives (if side then d else d') { w with vars := vs } before σ' z := by
  refine Simulates.bind (he h hs hL hy) fun v vs σ₁ y₁ hgives => ?_
  obtain ⟨regs, cs, rfl, hw, hcs, hval⟩ := hgives.value hv
  have hr := (reads_lastRegister hlast hw).2.trans (hval v rfl)
  have hgoes := hsplit ⟨σ₁, cs⟩ hgives.1 hw hr
  rw [choose]
  cases hside : I.truth v with
  | some side =>
    rw [hside] at hgoes
    obtain ⟨args, hgoes, hreceives⟩ := hgoes
    exact .done ⟨hgives.1, hw.frames, _, hgoes, args, cs, rfl, hreceives, hcs⟩
  | none =>
    rw [hside] at hgoes
    obtain ⟨y', hgoes, htraps⟩ := hgoes
    exact ⟨0, y', cs, hgoes, htraps⟩

theorem Performs.rounds {test : I.Eval Bool} {s₂ : State} {f : LoopFrame} {ls : List LoopFrame}
    (hbody : Performs L n s₁ inside x (ExitsScope L s₂ bottom)) (hL₁ : s₁.graph.Extends L.graph)
    (hloops : s₂.loops = f :: ls) (hcaller : HasCaller L before w.slot) {X Y : List BlockId}
    (hends : Apart { s₂ with loops := ls } X) (hclose : Rebuilds X { s₂ with loops := ls } Y s')
    (hleave : ∀ vs σ y, EndsRound L s₂ bottom f ls w before (.out .normal) vs σ y →
      ∃ k z, L.graph.Goes k y z ∧ Exits L s' o w before .normal vs σ z)
    (hnext : ∀ k ≤ n, ∀ z : I.Eval I.Exit,
      (∀ vs σ y, w.vars.Keeps vs → s₁.graph.Arrives inside { w with vars := vs } before σ y →
        Simulates L k y (z vs σ) (Exits L s' o w before)) →
      ∀ vs σ y, EndsRound L s₂ bottom f ls w before .next vs σ y →
        Simulates L (k + 1) y ((do if ← test then z else return .normal) vs σ) (Exits L s' o w before))
    (hvs : w.vars.Keeps vs) (hy : s₁.graph.Arrives inside { w with vars := vs } before σ y) :
    Simulates L n y (Interpretation.rounds test (do
        let exit ← x
        endRound f.label w.vars exit) n vs σ) (Exits L s' o w before) := by
  refine simulates_rounds (n := n)
    (fun vs σ y => w.vars.Keeps vs ∧ s₁.graph.Arrives inside { w with vars := vs } before σ y)
    (EndsRound L s₂ bottom f ls w before .next) ?_ ?_ ?_ n (by omega) ⟨hvs, hy⟩
  · rintro vs σ _ ⟨-, args, cs, rfl, -⟩
    exact ⟨inside, args, cs, rfl⟩
  · rintro vs σ y ⟨hvs, hy⟩
    obtain ⟨z, hgoes, hz⟩ := hy.goes hL₁
    refine ((hbody.round hloops hcaller hvs hz).goes hgoes).goesOn fun r vs' σ' y' hr => ?_
    cases r with
    | next => exact ⟨0, y', .refl _, hr⟩
    | out exit =>
      cases exit with
      | normal => exact hleave vs' σ' y' hr
      | _ => exact ⟨0, y', .refl _, hr.2.shift hr.1 hends hclose.shifts o⟩
  · intro k hk z hz
    exact hnext k hk z fun vs σ y hvs hy => hz vs σ y ⟨hvs, hy⟩

theorem performs_testedLoop {label : Option String} {test tested exit : BlockId} {r : Register}
    {t t₁ t₂ : Builder} {s₂ : State} (he : Realizes L n q call e)
    (hv : e.type.isVoid = false) (henter : Runs (enter b) s.toBuilder test t)
    (htest : Runs (lowerExpr test e) { s with toBuilder := t } tested s₁)
    (hlast : Runs (lastRegister tested) s₁.toBuilder r t₁)
    (hbranch : Runs (branch tested r) t₁ (inside, exit) t₂) (hbody : Performs L n
      { s₁ with toBuilder := t₂, loops := ⟨label, .known test exit⟩ :: s₁.loops } inside x
      (ExitsScope L s₂ bottom)) (hshift : Shifts fs cs [inside]
      { s₁ with toBuilder := t₂, loops := ⟨label, .known test exit⟩ :: s₁.loops } bottom.toList s₂)
    (hback : Repeats test bottom { s₂ with loops := s₂.loops.tail } s')
    (hs : s.Tidy) (hb : Apart s [b]) (hL : Links L s') (hL₁ : Links L s₁) :
    Performs L n s b (do
      let outer ← visible
      Interpretation.tested (evalCondition q call e) (do
        let exit ← x
        endRound label outer exit) n) (Exits L s' (some exit)) := by
  intro w before σ y hcaller hy
  obtain ⟨f, ls, hloops, ⟨hlabel, htargets⟩, -⟩ :=
    Shifts.pop (s := { s₁ with toBuilder := t₂ }) hshift rfl
  obtain ⟨label', targets⟩ := f
  obtain rfl : label' = label := hlabel
  obtain rfl : targets = .known test exit := by
    cases htargets
    rfl
  rw [hloops, List.tail_cons] at hback
  have hclose := hback.rebuilds
  obtain ⟨-, -, -, rfl⟩ := runs_lastRegister.1 hlast
  have hsplit : Rebuilds [test] { s with toBuilder := t } [inside, exit] { s₁ with toBuilder := t₂ } :=
    (leads_lowerExpr test e htest).trans (rebuilds_branch hlast hbranch)
  have hapart : Apart { s₁ with toBuilder := t₂ } [inside, exit] :=
    Apart.left (Z := []) (Apart.after hb (.andThen (.of_moves (moves_enter henter)) hsplit.shifts))
  have hapart₂ : Apart s₂ (bottom.toList ++ [exit]) :=
    Apart.after (Z := [exit]) (hapart.push (f := ⟨label', .known test exit⟩) rfl) hshift
  have hends : Apart { s₂ with loops := ls } bottom.toList := by
    simpa [LoopTargets.waiting] using hapart₂.left.pop hloops
  have hL₂ : s₂.graph.Extends L.graph := hclose.grows.graph.trans hL.graph
  have hLt₂ : t₂.graph.Extends L.graph := hshift.graph_extends.trans hL₂
  have hLt : t.graph.Extends L.graph := hsplit.grows.graph.trans hLt₂
  obtain ⟨args, cs, hgoes, hreceives, hcs, -⟩ := yields_enter henter hLt hy
  have hawaits : t.graph.Awaits test w := by
    obtain ⟨regs, _, -, hw, -⟩ := hy
    exact awaits_converge (runs_enter.1 henter) hw.frames
  have hcondition {vs : I.Variables} {σ : I.State} {y : (I.machine L).Point}
      (hy : t.graph.Arrives test { w with vars := vs } before σ y) :
      Simulates L (n + 1) y (evalCondition q call e vs σ) fun side vs' σ' y' =>
        vs.Same vs' ∧ s₁.graph.Frames tested { w with vars := vs' } ∧ ∃ z, L.graph.Goes 1 y' z ∧
          t₂.graph.Arrives (if side then inside else exit) { w with vars := vs' } before σ' z := by
    obtain ⟨z, hgoes, hz⟩ := hy.goes hLt
    refine ((simulates_condition (w := { w with vars := vs }) he hv htest hlast
      (tidy_lift tidies_enter henter hs) hL₁ ?_ hz).goes hgoes).mono (by omega)
    exact fun _ _ _ m _ hw hr => goes_branch hbranch hLt₂ hw hr m
  have hout {vs : I.Variables} {σ : I.State} {y : (I.machine L).Point} (hvs : w.vars.Keeps vs)
      (hy : t₂.graph.Arrives exit { w with vars := vs } before σ y) :
      ∃ k z, L.graph.Goes k y z ∧ Exits L s' (some exit) w before .normal vs σ z := by
    obtain ⟨z, hgoes, hz⟩ := hy.goes hLt₂
    have hne := (branch_apart hbranch).1.2.2
    refine ⟨0, z, hgoes, hvs, exit, rfl, (hz.kept fun B hB => ?_).kept fun B => hclose.keeps ?_⟩
    · exact hshift.keeps (by simpa using hne.symm) hB
    · exact hapart₂.apart_last
  refine ((Simulates.bind (hcondition ⟨args, cs, rfl, hreceives, hcs⟩) ?_).goes hgoes).mono (by omega)
  rintro side vs₁ σ₁ y₁ ⟨hvs₁, hframes, z, hgoes, hz⟩
  have hexit := (awaits_branch hbranch (hframes.same hvs₁)).2
  cases side with
  | false =>
    obtain ⟨k, z', hgoes', hz'⟩ := hout hvs₁.keeps hz
    exact ⟨_, z', hgoes.trans hgoes', hz'⟩
  | true =>
    refine (hbody.rounds hLt₂ hloops hcaller hends hclose ?_ ?_ hvs₁.keeps hz).goes hgoes
    · rintro vs σ _ ⟨vs', hvs, T, cs, hT, htakes, hcs, rfl⟩
      exact hout (fun name hname => (hvs name hname).1)
        (arrives_of_takes hexit hLt₂ hT htakes hvs hcs σ)
    · rintro k hk z hz vs σ y ⟨vs', hvs, hend⟩
      -- control comes back to the test, from the end of the body or with a jump
      obtain ⟨j, y', hgoes, hy'⟩ : ∃ j y', L.graph.Goes j y y' ∧
          t.graph.Arrives test { w with vars := vs } before σ y' := by
        rcases hend with ⟨c, hc, hyc⟩ | ⟨T, cs, hT, htakes, hcs, rfl⟩
        · obtain ⟨hnone, -⟩ | ⟨d, t₃, hd, hjump, rfl⟩ := hback
          · simp [hnone] at hc
          obtain rfl := Option.some.inj (hd.symm.trans hc)
          obtain ⟨regs, cs, rfl, hw, hcs, -⟩ := hyc
          obtain ⟨T, hT, htakes, hgoes⟩ := goes_jump hjump hL.graph hw ⟨σ, cs⟩
          have hext : t.graph.Extends s₂.graph := hsplit.grows.graph.trans hshift.graph_extends
          exact ⟨1, _, hgoes, arrives_of_takes hawaits hext hT htakes hvs hcs σ⟩
        · exact ⟨0, _, .refl _, arrives_of_takes hawaits hLt hT htakes hvs hcs σ⟩
      refine ((Simulates.bind ((hcondition hy').mono (k := k + 1) (by omega)) ?_).goes hgoes).mono (by omega)
      rintro side vs₂ σ₂ y₂ ⟨hvs₂, -, y₃, hgoes, hy₃⟩
      have hkeeps : w.vars.Keeps vs₂ := fun name hname => hvs₂.keeps name (hvs name hname).1
      cases side with
      | true => exact (hz vs₂ σ₂ y₃ hkeeps hy₃).goes hgoes
      | false =>
        obtain ⟨j, y₄, hgoes', hy₄⟩ := hout hkeeps hy₃
        exact ⟨_, y₄, hgoes.trans hgoes', hy₄⟩

section Close

variable {leaving repeating : List BlockId} {g : Graph} {d : BlockId} {t t' t₁ t₂ : Builder}
  {preds : List BlockId} {u : Unit}

theorem frames_jumps {bs : List BlockId} {u : PUnit} (h : Runs (bs.forM (jump · c)) t u t')
    (hd : t.graph.Frames d w) : t'.graph.Frames d w := by
  induction bs generalizing t with
  | nil =>
    obtain rfl := Runs.forM_nil.1 h
    exact hd
  | cons b bs ih =>
    obtain ⟨t₁, hjump, hrest⟩ := Runs.forM_cons.1 h
    exact ih hrest (frames_jump hjump hd)

theorem frames_converge {context : BlockId} (h : Runs (converge context preds) t c t')
    (hd : t.graph.Frames d w) : t'.graph.Frames d w := by
  simp only [converge, Runs.bind_iff, Runs.pure_iff] at h
  obtain ⟨_, t₁, hchild, _, _, hjumps, rfl, rfl⟩ := h
  exact frames_jumps hjumps (hd.kept fun B hB => (moves_newChild hchild).keeps d B (by simp) hB)

theorem goes_back (h : Runs (jump c inside) t u t') (hL : t'.graph.Extends L.graph)
    (hinside : g.Awaits inside w) (hg : g.Extends t.graph) (hvs : w.vars.Keeps vs)
    (hy : t.graph.Arrives (L := L) c { w with vars := vs } before σ y) :
    ∃ z, L.graph.Goes 1 y z ∧ g.Arrives inside { w with vars := vs } before σ z := by
  obtain ⟨z, hgoes, hz⟩ := hy.goes ((moves_jump h).1.graph_extends.trans hL)
  obtain ⟨regs, cs, rfl, hw, hcs, -⟩ := hz
  obtain ⟨T, hT, htakes, hjump⟩ := goes_jump h hL hw ⟨σ, cs⟩
  exact ⟨_, hgoes.trans hjump, arrives_of_takes hinside hg hT htakes hvs.passes hcs σ⟩

theorem arrives_converge {context : BlockId} (h : Runs (converge context preds) t c t')
    (hL : t'.graph.Extends L.graph) (hcontext : t.graph.Frames context w) (hd : d ∈ preds)
    (hvs : w.vars.Passes vs' vs)
    (hy : t.graph.Yields (L := L) d { w with vars := vs' } before σ none y) :
    ∃ z, L.graph.Goes 1 y z ∧ t'.graph.Arrives c { w with vars := vs } before σ z := by
  obtain ⟨regs, cs, rfl, hw, hcs, -⟩ := hy
  obtain ⟨args, hgoes, hreceives⟩ := goes_converge h hL hcontext hd hw rfl hvs ⟨σ, cs⟩
  exact ⟨_, hgoes, args, cs, rfl, hreceives, hcs⟩

theorem Joins.leaves (h : Joins b leaving s o s') (hL : Links L s') (hb : s.graph.Frames b w)
    (hd : d ∈ leaving) (hvs : w.vars.Passes vs' vs)
    (hy : s.graph.Yields (L := L) d { w with vars := vs' } before σ none y) :
    ∃ k z, L.graph.Goes k y z ∧ Exits L s' o w before .normal vs σ z := by
  obtain ⟨z, c, hgoes, rfl, hz⟩ := h.goes (w := { w with vars := vs' }) hL hb hd rfl hvs hy
  exact ⟨1, z, hgoes, fun name hname => (hvs name hname).1, c, rfl, hz⟩

variable (L n) in
structure Closes (test : I.Eval Bool) (g : Graph) (inside : BlockId) (leaving repeating : List BlockId)
    (w : View I) (before : Contexts I) (s : State) (o : Option BlockId) (s' : State) : Prop where
  leaves : ∀ d ∈ leaving, ∀ vs' vs σ (y : (I.machine L).Point), w.vars.Passes vs' vs →
    s.graph.Yields d { w with vars := vs' } before σ none y →
    ∃ k z, L.graph.Goes k y z ∧ Exits L s' o w before .normal vs σ z
  repeats : ∀ d ∈ repeating, ∀ vs' vs σ (y : (I.machine L).Point), w.vars.Passes vs' vs →
    s.graph.Yields d { w with vars := vs' } before σ none y → ∀ k ≤ n, ∀ z : I.Eval I.Exit,
    (∀ vs σ y, w.vars.Keeps vs → g.Arrives inside { w with vars := vs } before σ y →
      Simulates L k y (z vs σ) (Exits L s' o w before)) →
    Simulates L (k + 1) y ((do if ← test then z else return .normal) vs σ) (Exits L s' o w before)

theorem closes_endless (htrue : e.isTrue = true)
    (hconverge : Runs (converge b repeating) s.toBuilder c t₁)
    (hjump : Runs (jump c inside) t₁ u t₂) (hjoin : Joins b leaving { s with toBuilder := t₂ } o s')
    (hL : Links L s') (hX : Apart s (leaving ++ repeating)) (hb : s.graph.Frames b w)
    (hinside : g.Awaits inside w) (hg : g.Extends s.graph) :
    Closes L n (evalCondition q call e) g inside leaving repeating w before s o s' := by
  have hL₂ : t₂.graph.Extends L.graph := hjoin.rebuilds.grows.graph.trans hL.graph
  have hL₁ : t₁.graph.Extends L.graph := (moves_jump hjump).1.graph_extends.trans hL₂
  have hback : Rebuilds repeating s [] { s with toBuilder := t₂ } :=
    (Rebuilds.of_moves (moves_converge hconverge)).trans (.of_moves (moves_jump hjump).1)
  have hb₂ : t₂.graph.Frames b w := frames_jump hjump (frames_converge hconverge hb)
  constructor
  · intro d hd vs' vs σ y hvs hy
    refine hjoin.leaves hL hb₂ hd hvs (hy.kept fun B => hback.keeps ?_)
    exact fun hd' => (List.nodup_append.1 (List.nodup_append.1 hX.nodup).1).2.2 d hd d hd' rfl
  · intro d hd vs' vs σ y hvs hy k _ z hz
    obtain ⟨y₁, hgoes, hy₁⟩ := arrives_converge hconverge hL₁ hb hd hvs hy
    have hkeeps : w.vars.Keeps vs := fun name hname => (hvs name hname).1
    obtain ⟨y₂, hgoes', hy₂⟩ := goes_back hjump hL₂ hinside
      (hg.trans (moves_converge hconverge).graph_extends) hkeeps hy₁
    rw [evalCondition_of_isTrue htrue]
    exact ((hz vs σ y₂ hkeeps hy₂).goes (hgoes.trans hgoes')).mono (by omega)

theorem closes_tested {t₃ t₄ : Builder} {tested again exit : BlockId} {r : Register}
    (he : Realizes L n q call e) (hv : e.type.isVoid = false)
    (hconverge : Runs (converge b repeating) s.toBuilder c t₁)
    (htest : Runs (lowerExpr c e) { s with toBuilder := t₁ } tested s₁)
    (hlast : Runs (lastRegister tested) s₁.toBuilder r t₂)
    (hbranch : Runs (convergeBranch b leaving tested r) t₂ (again, exit) t₃)
    (hjump : Runs (jump again inside) t₃ u t₄) (hs : s.Tidy)
    (hL : Links L { s₁ with toBuilder := t₄ }) (hX : Apart s (leaving ++ repeating))
    (hb : s.graph.Frames b w) (hinside : g.Awaits inside w) (hg : g.Extends s.graph) :
    Closes L n (evalCondition q call e) g inside leaving repeating w before s (some exit)
      { s₁ with toBuilder := t₄ } := by
  obtain ⟨T, hT, hr, rfl⟩ := runs_lastRegister.1 hlast
  have hsplit := moves_convergeBranch hbranch hT (Block.contains_of_lastRegister? hr)
  have hL₃ : t₃.graph.Extends L.graph := (moves_jump hjump).1.graph_extends.trans hL.graph
  have hL₁ : Links L s₁ := hL.back
    ((Rebuilds.of_moves hsplit).trans (.of_moves ((moves_jump hjump).1.frame [exit]))).grows
  have hstart : Rebuilds repeating s [tested] s₁ :=
    (Rebuilds.of_moves (moves_converge hconverge)).trans (leads_lowerExpr c e htest)
  have hdisjoint (d : BlockId) (hd : d ∈ leaving) : d ∉ repeating := fun hd' =>
    (List.nodup_append.1 (List.nodup_append.1 hX.nodup).1).2.2 d hd d hd' rfl
  have hbc : b ∉ [c] := by
    obtain ⟨B, hB, -⟩ := hb
    simpa using (ne_of_fresh ⟨B, hB⟩ (converge_fresh hconverge)).symm
  have hb₁ : s₁.graph.Frames b w := (frames_converge hconverge hb).kept
    fun B => (leads_lowerExpr c e htest).keeps hbc
  have hpreds (p : BlockId) (hp : p ∈ leaving) : s₁.graph.block? p ≠ none := by
    obtain ⟨R, -, hopens⟩ := hX
    obtain ⟨P, hP, -⟩ := (hopens p).2 (by simp [hp])
    simp [hstart.keeps (hdisjoint p hp) hP]
  have hagain : again ≠ exit := by
    have htaken : Apart s₁ (tested :: leaving) :=
      Apart.after (hX.perm List.perm_append_comm) hstart.shifts
    have hends := Apart.after (Z := []) (htaken.perm (by simp)) (.of_moves hsplit)
    simpa using (List.nodup_append.1 hends.nodup).1
  have hout {vs : I.Variables} {σ : I.State} {y : (I.machine L).Point} (hvs : w.vars.Keeps vs)
      (hy : t₃.graph.Arrives exit { w with vars := vs } before σ y) :
      ∃ k z, L.graph.Goes k y z ∧
        Exits L { s₁ with toBuilder := t₄ } (some exit) w before .normal vs σ z := by
    obtain ⟨z, hgoes, hz⟩ := hy.goes hL₃
    refine ⟨0, z, hgoes, hvs, exit, rfl, hz.kept fun B => (moves_jump hjump).1.keeps exit B ?_⟩
    simpa using hagain.symm
  constructor
  · intro d hd vs' vs σ y hvs hy
    obtain ⟨regs, cs, rfl, hw, hcs, -⟩ := hy.kept fun B => hstart.keeps (hdisjoint d hd)
    obtain ⟨args, hgoes, hreceives⟩ := goes_convergeBranch_leaving hbranch hL₃ hb₁ hpreds hd hw rfl hvs
      ⟨σ, cs⟩
    obtain ⟨k, z, hgoes', hz⟩ := hout (fun name hname => (hvs name hname).1)
      ⟨args, cs, rfl, hreceives, hcs⟩
    exact ⟨_, z, hgoes.trans hgoes', hz⟩
  · intro d hd vs' vs σ y hvs hy k hk z hz
    have hkeeps : w.vars.Keeps vs := fun name hname => (hvs name hname).1
    have hLt₁ := (leads_lowerExpr c e htest).grows.graph.trans hL₁.graph
    obtain ⟨y₁, hgoes, hy₁⟩ := arrives_converge hconverge hLt₁ hb hd hvs hy
    obtain ⟨y₂, hgoes', hy₂⟩ := hy₁.goes hLt₁
    have htested := simulates_condition (w := { w with vars := vs }) he hv htest hlast
      (tidy_lift tidies_converge hconverge hs) hL₁ (fun vs₁ regs v m hvs₁ hw hr =>
        goes_convergeBranch_tested hbranch hL₃ hb₁ hpreds hw rfl (hkeeps.trans hvs₁.keeps).passes hr m) hy₂
    refine ((Simulates.bind (htested.mono (k := k + 1) (by omega)) ?_).goes
      (hgoes.trans hgoes')).mono (by omega)
    rintro side vs₁ σ₁ y₃ ⟨hvs₁, -, y₄, hgoes, hy₄⟩
    have hkeeps₁ := hkeeps.trans hvs₁.keeps
    cases side with
    | true =>
      obtain ⟨y₅, hgoes', hy₅⟩ := goes_back hjump hL.graph hinside
        ((hg.trans hstart.grows.graph).trans hsplit.graph_extends) hkeeps₁ hy₄
      exact ((hz vs₁ σ₁ y₅ hkeeps₁ hy₅).goes (hgoes.trans hgoes')).mono (by omega)
    | false =>
      obtain ⟨j, y₅, hgoes', hy₅⟩ := hout hkeeps₁ hy₄
      exact ⟨_, y₅, hgoes.trans hgoes', hy₅⟩

theorem closes_closeLoop (h : Runs (closeLoop b inside e leaving repeating) s o s') (hs : s.Tidy)
    (hL : Links L s') (hX : Apart s (leaving ++ repeating)) (hb : s.graph.Frames b w)
    (hinside : g.Awaits inside w) (hg : g.Extends s.graph)
    (he : repeating ≠ [] → e.isTrue = false → Realizes L n q call e ∧ e.type.isVoid = false) :
    Closes L n (evalCondition q call e) g inside leaving repeating w before s o s' := by
  rcases closeLoop_cases h with ⟨rfl, t, ht, hjoin⟩ | ⟨-, htrue, c, t, t', hconverge, hjump, hjoin⟩ |
    ⟨hmore, htrue, c, t, tested, s₁, r, again, out, t₁, t₂, hconverge, htest, hlast, hbranch, hjump, rfl, rfl⟩
  · refine ⟨fun d hd vs' vs σ y hvs hy => ?_, by simp⟩
    rcases ht with rfl | ht
    · exact hjoin.leaves hL hb hd hvs hy
    · obtain rfl := runs_report.1 ht
      exact hjoin.leaves hL hb hd hvs hy
  · exact closes_endless htrue hconverge hjump hjoin hL hX hb hinside hg
  · obtain ⟨he, hv⟩ := he hmore htrue
    exact closes_tested he hv hconverge htest hlast hbranch hjump hs hL hX hb hinside hg

theorem performs_queuedLoop {label : Option String} {s₂ : State} {bottom : Option BlockId}
    {ls : List LoopFrame} (henter : Runs (enter b) s.toBuilder inside t)
    (hbody : Performs L n { s with toBuilder := t, loops := ⟨label, .queued [] []⟩ :: s.loops } inside x
      (ExitsScope L s₂ bottom)) (hshift : Shifts fs cs [inside]
      { s with toBuilder := t, loops := ⟨label, .queued [] []⟩ :: s.loops } bottom.toList s₂)
    (hloops : s₂.loops = ⟨label, .queued leaving repeating⟩ :: ls)
    (hclose : Runs (closeLoop b inside e leaving (repeating ++ bottom.toList)) { s₂ with loops := ls } o
      s') (he : repeating ++ bottom.toList ≠ [] → e.isTrue = false →
      Realizes L n q call e ∧ e.type.isVoid = false) (hs : State.Tidy { s₂ with loops := ls })
    (hb : Apart s [b]) (hL : Links L s') :
    Performs L n s b (do
      let outer ← visible
      Interpretation.rounds (evalCondition q call e) (do
        let exit ← x
        endRound label outer exit) n) (Exits L s' o) := by
  intro w before σ y hcaller hy
  have hclosed := rebuilds_closeLoop hclose
  have hL₂ : s₂.graph.Extends L.graph := hclosed.grows.graph.trans hL.graph
  have hLt : t.graph.Extends L.graph := hshift.graph_extends.trans hL₂
  obtain ⟨args, cs, hgoes, hreceives, hcs, hframes⟩ := yields_enter henter hLt hy
  have hawaits : t.graph.Awaits inside w := by
    obtain ⟨regs, _, -, hw, -⟩ := hy
    exact awaits_converge (runs_enter.1 henter) hw.frames
  have hinside : Apart { s with toBuilder := t } [inside] :=
    Apart.after (Z := []) hb (.of_moves (moves_enter henter))
  have hends : Apart { s₂ with loops := ls } (leaving ++ (repeating ++ bottom.toList)) := by
    have hbottom : Apart s₂ bottom.toList := Apart.left (Z := [])
      (Apart.after (hinside.push (f := ⟨label, .queued [] []⟩) rfl) hshift)
    refine (hbottom.pop hloops).perm ?_
    rw [← List.append_assoc]
    exact List.perm_append_comm
  have hb₂ : s₂.graph.Frames b w :=
    hframes.kept fun B => hshift.keeps (by simpa using (enter_ne henter).symm)
  have hend : Closes L n (evalCondition q call e) t.graph inside leaving (repeating ++ bottom.toList) w
      before { s₂ with loops := ls } o s' :=
    closes_closeLoop hclose hs hL hends hb₂ hawaits hshift.graph_extends he
  refine (hbody.rounds hLt hloops hcaller hends hclosed ?_ ?_ (.refl _)
    ⟨args, cs, rfl, hreceives, hcs⟩).goes hgoes
  · rintro vs σ y ⟨vs', hvs, d, hd, hy⟩
    exact hend.leaves d hd vs' vs σ y hvs hy
  · rintro k hk z hz vs σ y ⟨vs', hvs, ⟨d, hd, hy⟩ | ⟨d, hd, hy⟩⟩
    · exact hend.repeats d (List.mem_append_right _ (Option.mem_toList.2 hd)) vs' vs σ y hvs hy k hk z hz
    · exact hend.repeats d (List.mem_append_left _ hd) vs' vs σ y hvs hy k hk z hz

end Close

end Code

end BlockGraph.Lowering

import BlockGraph.Proofs.Initialization.Statements
import BlockGraph.Proofs.Lowering.Partition

namespace BlockGraph

open Builder Lowering

/-- The graph was made as the origins say, from the entries of the program and of its functions. -/
def Lowered.HasOrigins (L : Lowered) (O : Origins) : Prop :=
  ∃ s, Chronicle O s ∧ s.graph = L.graph ∧ ∀ b, b ∈ O.roots ↔ b ∈ L.entries

/-- The origins are the tables that lowering the program wrote: entries start without variables, every
other block with those that the run made it with, and what a block declares comes after them. -/
structure Program.Recounts (p : Program) (L : Lowered) (O : Origins) : Prop where
  entries : ∀ b ∈ L.entries, O.start b = ∅
  made : ∀ b, L.graph.block? b ≠ none → b ∉ L.entries → p.Makes b (O.start b)
  declared : ∀ b B, L.graph.block? b = some B →
    B.locals.symbols.keys = (O.start b).keys ++ O.declared b
  homes : ∀ b B v, L.graph.block? b = some B → v ∈ O.outer b → v.name ∈ O.declared v.home

theorem Graph.Path.congr {g : Graph} {es es' : List BlockId} {b c : BlockId} {xs : List BlockId}
    (hflows : ∀ b c, g.Flows es b c → g.Flows es' b c) (h : g.Path es b c xs) : g.Path es' b c xs := by
  induction h with
  | here => exact .here
  | step _ hflow ih => exact ih.step (hflows _ _ hflow)

namespace Lowering

theorem initial_tracks (p : Program) : ∃ O, Tracks p O initial := by
  have hlayouts : Chronicle {} { initial.toBuilder with graph := { initial.graph with blocks := [] } } :=
    .quiet .empty rfl
  have hroot := hlayouts.root (runs_addBlock.2 ⟨rfl, rfl⟩ : Runs (addBlock []) _ ⟨0⟩ initial.toBuilder)
  refine ⟨_, hroot, by simp [initial, Origins.root, Origins.begin], fun b hb hroot => ?_, by simp [initial]⟩
  rw [initial_block?] at hb
  simp_all [Origins.root]

theorem amends_finish {roots : List BlockId} {s s' : Builder} {b : BlockId} {u : Unit}
    (h : Runs (finish b) s u s') : Amends roots b s s' := by
  obtain ⟨B, hB, hopen, rfl⟩ := runs_finish.1 h
  exact .update hB hopen ⟨rfl, rfl, rfl, List.prefix_rfl, by simp [hopen]⟩ rfl (fun _ hn => hn)
    fun _ hc => .inl hc

end Lowering

namespace Program

variable {p : Program} {L : Lowered} {O : Origins}

theorem exists_tracks (hp : p.DistinctFunctions) (h : p.lower.result = .ok L) :
    ∃ O s, Tracks p O s ∧ s.graph = L.graph ∧ (∀ b, b ∈ O.roots ↔ b ∈ L.entries) ∧
      ∀ f, f ∈ L.functions ↔ s.functions[f.1.index]? = some f.2 := by
  obtain ⟨o, s, t, hbody, hend, hgraph, hentry, hfunctions⟩ := exists_run h
  obtain ⟨O, hO⟩ := initial_tracks p
  have hplace : Places p [] O initial ⟨0⟩ := ⟨hO, ⟨_, rfl, rfl⟩, .nil, by simp⟩
  obtain ⟨O', hrec, -, -⟩ := lands_lowerScope p.body (visits_body p)
    ⟨hp, by simp [initial], by simp⟩ hbody hplace
  have htracks : Tracks p O' { s with toBuilder := t } := by
    cases o with
    | none =>
      obtain rfl : t = s.toBuilder := hend
      exact hrec.after
    | some b => exact (Records.amend hrec.after (amends_finish hend)).after
  refine ⟨O', _, htracks, hgraph.symm, fun b => ?_, hfunctions⟩
  rw [htracks.roots b, Lowered.entries, List.mem_cons, hentry, List.mem_map]
  refine or_congr_right ⟨?_, ?_⟩
  · rintro ⟨k, e, he, rfl⟩
    exact ⟨(⟨k⟩, e), (hfunctions _).2 he, rfl⟩
  · rintro ⟨f, hf, rfl⟩
    exact ⟨f.1.index, f.2, (hfunctions f).1 hf, rfl⟩

theorem flows_iff (hp : p.DistinctFunctions) (h : p.lower.result = .ok L)
    (hroots : ∀ b, b ∈ O.roots ↔ b ∈ L.entries) {b c : BlockId} :
    L.graph.Flows O.roots b c ↔ L.graph.Flows (L.functions.map (·.2.entry)) b c := by
  obtain ⟨ω, hω⟩ := exists_zones hp h
  refine and_congr_left fun ⟨B, hB, hc⟩ => ?_
  rw [hroots c, Lowered.entries, List.mem_cons, not_or]
  refine and_iff_right_of_imp fun hne hentry => ?_
  -- nothing refers to the entry of the program, which heads a zone of its own
  have hrefers : c ∈ L.graph.references b :=
    Graph.mem_references.2 ⟨B, hB, Block.mem_referenced_of_successors hc⟩
  refine hω.not_intra (e := c) (by simp [Lowered.entries, hentry]) ⟨hrefers, fun f hf heq => ?_⟩
  exact hne (List.mem_map.2 ⟨f, hf, heq⟩)

theorem gives_parameter (hp : p.DistinctFunctions) (h : p.lower.result = .ok L) (hO : L.HasOrigins O)
    {f : FunctionId × FunctionEntry} (hf : f ∈ L.functions) {B : Block}
    (hB : L.graph.block? f.2.entry = some B) {q : Parameter} (hq : q ∈ B.parameters) {n : String}
    (hn : q.name = some n) : O.Gives L.graph f.2.entry ⟨n, f.2.entry⟩ := by
  obtain ⟨O₀, s₀, hO₀, hgraph₀, -, hfunctions⟩ := exists_tracks hp h
  obtain ⟨B', hB', hgiven⟩ := hO₀.parameters _ _ ((hfunctions f).1 hf)
  have hfits₀ := hO₀.fits
  rw [hgraph₀] at hB' hfits₀
  obtain rfl := Option.some.inj (hB.symm.trans hB')
  have hvalue := hfits₀.keeps _ B n hB (.inr (hgiven q hq n hn))
  obtain ⟨s, hs, hgraph, hroots⟩ := hO
  have hfits := Origins.fits_of_chronicle hs
  rw [hgraph] at hfits
  -- an entry starts without variables
  have houter : O.outer f.2.entry = [] := (hfits.roots _ ((hroots _).2 (by
    rw [Lowered.entries]
    exact List.mem_cons_of_mem _ (List.mem_map_of_mem hf)))).2
  refine ⟨?_, ⟨B, hB, hvalue⟩, Bool.eq_false_iff.2 fun hstart => ?_⟩
  · have hkey := SymbolTable.mem_keys_of_holds hvalue
    rw [hfits.names _ B hB, Origins.scope_names, houter] at hkey
    exact Origins.mem_scope.2 (.inr ⟨by simpa using hkey, rfl⟩)
  · have hkey := SymbolTable.mem_keys_of_holds hstart
    simp [hfits.starts _ B hB, houter] at hkey

theorem recounts {s : State} (hO : Tracks p O s) (hgraph : s.graph = L.graph)
    (hroots : ∀ b, b ∈ O.roots ↔ b ∈ L.entries) : p.Recounts L O := by
  have hfits := hO.fits
  refine ⟨fun b hb => ?_, fun b hb hentry => ?_, fun b B hB => ?_, fun b B v hB hv => ?_⟩
  · obtain ⟨⟨B, hB⟩, houter⟩ := hfits.roots b ((hroots b).2 hb)
    have hkeys := hfits.starts b B hB
    rw [houter] at hkeys
    exact OrderedMap.eq_of_entries (List.map_eq_nil_iff.1 hkeys)
  · exact hO.made b (by rwa [hgraph]) fun hroot => hentry ((hroots b).1 hroot)
  · rw [← hgraph] at hB
    rw [hfits.names b B hB, Origins.scope_names, hfits.starts b B hB]
  · rw [← hgraph] at hB
    exact (hfits.homes b B v hB hv).2

/-- **Initialisation is decided in one pass.** Every block is made with values for exactly those of its
variables that have got one on all paths from their declaration, back edges and late jumps included.
Edges do not go into functions: a call leads to the block where the caller goes on, and the entry of a
function starts without variables and gives its parameters their values. That holds for all origins the
graph may have, and the tables that lowering writes on its way are such origins. -/
theorem lower_initialization (hp : p.DistinctFunctions) (h : p.lower.result = .ok L) :
    (∃ O, L.HasOrigins O ∧ p.Recounts L O) ∧ ∀ O, L.HasOrigins O →
      O.Exact L.graph (L.functions.map (·.2.entry)) ∧
      ∀ f ∈ L.functions, ∀ B, L.graph.block? f.2.entry = some B → ∀ q ∈ B.parameters, ∀ n,
        q.name = some n → O.Gives L.graph f.2.entry ⟨n, f.2.entry⟩ := by
  obtain ⟨O, s, hO, hgraph, hroots, -⟩ := exists_tracks hp h
  have horigins : L.HasOrigins O := ⟨s.toBuilder, hO.chronicle, hgraph, hroots⟩
  refine ⟨⟨O, horigins, recounts hO hgraph hroots⟩, fun O' hO' => ⟨?_, fun f hf B hB q hq n hn =>
    gives_parameter hp h hO' hf hB hq hn⟩⟩
  obtain ⟨s', hs', hgraph', hroots'⟩ := hO'
  have hexact := (Origins.fits_of_chronicle hs').exact
  rw [hgraph'] at hexact
  refine ⟨hexact.names, fun b B v hB hv => (hexact.holds_iff b B v hB hv).trans (forall_congr' fun xs => ?_)⟩
  exact imp_congr_left ⟨.congr fun _ _ => (flows_iff hp h hroots').1,
    .congr fun _ _ => (flows_iff hp h hroots').2⟩

def woven : Program :=
  let i := Sample.byteVar "i"
  let x := Sample.byteVar "x"
  let on (n : UInt8) (kind : LoopJump) : Stmt :=
    .cond (Expr.mkCompare .eq i (Expr.ofU8 n)) (some { statements := [.jump kind none] }) none
  ⟨{ functions := [Sample.square]
     statements := [
      Sample.define Sample.byte "x" none,
      Sample.define Sample.byte "i" (some (Expr.ofU8 0)),
      .loop .testLast none (Expr.mkCompare .lt x (Expr.ofU8 9)) { statements := [
        on 3 .leave,
        .expr (Expr.mkAssign x (Expr.mkCall Sample.square.reference [i])),
        on 5 .again,
        .scope { statements := [
          Sample.define Sample.byte "y" (some x),
          .expr (Expr.mkAssign i (Sample.byteVar "y"))] }] },
      .scope { statements := [
        Sample.define Sample.byte "y" none,
        .expr (Expr.mkAssign (Sample.byteVar "y") i)] }] }⟩

theorem lower_initialization_of_woven :
    woven.DistinctFunctions ∧ ∃ L, woven.lower.result = .ok L ∧
      (∃ O, L.HasOrigins O ∧ woven.Recounts L O) ∧
      ∀ O, L.HasOrigins O → O.Exact L.graph (L.functions.map (·.2.entry)) ∧
        ∀ f ∈ L.functions, ∀ B, L.graph.block? f.2.entry = some B → ∀ q ∈ B.parameters, ∀ n,
          q.name = some n → O.Gives L.graph f.2.entry ⟨n, f.2.entry⟩ := by
  have hdistinct : woven.DistinctFunctions := by decide
  obtain ⟨L, hL⟩ := exists_eq_ok (x := woven.lower.result) (by decide +kernel)
  exact ⟨hdistinct, L, hL, lower_initialization hdistinct hL⟩

end Program

end BlockGraph

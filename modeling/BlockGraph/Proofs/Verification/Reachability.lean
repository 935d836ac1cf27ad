import BlockGraph.Proofs.Verification.Rules
import Mathlib.Algebra.GroupWithZero.Nat
import Mathlib.Data.List.Nodup

/-!
The search for blocks without a way out, as the loop over a list of pending blocks that it is. The
loop ends after one turn for each entry and for each reference of a block it sees, and what it
reports is exactly the open blocks that can be reached, each of them once.
-/

namespace BlockGraph

/-- The search under way: the blocks it met, those still pending with the newest in front, and the
reports so far. -/
structure Search where
  seen : List BlockId := []
  pending : List BlockId
  reported : List BlockId := []

theorem Block.violations_cases {g : Graph} {b : Block} {v : Violation} (h : v ∈ b.violations g) :
    (∃ r o, v = .forwardReference b.id r o) ∨ (∃ c, v = .missingBlock b.id c) ∨
    (∃ c, v = .referenceMismatch b.id c) ∨ (∃ r, v = .undefinedRegister b.id r) ∨
    (∃ r, v = .conditionType b.id r) ∨ (∃ r t, v = .notABlockRef b.id r t) ∨
    ∃ r ts us, ts ≠ us ∧
      v = .argumentMismatch b.id r (ValueType.listText ts) (ValueType.listText us) := by
  have hreference {i : Instruction} (h : v ∈ b.referenceViolations g i) :
      (∃ c, v = .missingBlock b.id c) ∨ ∃ c, v = .referenceMismatch b.id c := by
    unfold referenceViolations at h
    split at h
    · simp at h
    · split at h
      · exact .inl ⟨_, by simpa using h⟩
      · split at h
        · simp at h
        · exact .inr ⟨_, by simpa using h⟩
  have hcondition {t : Terminator} (h : v ∈ b.conditionViolations t) :
      ∃ r, v = .conditionType b.id r := by
    unfold conditionViolations at h
    split at h
    · simp at h
    · split at h
      · simp at h
      · exact ⟨_, by simpa using h⟩
  have hedge {e : Edge} (h : v ∈ b.edgeViolations e) : (∃ r t, v = .notABlockRef b.id r t) ∨
      ∃ r ts us, ts ≠ us ∧
        v = .argumentMismatch b.id r (ValueType.listText ts) (ValueType.listText us) := by
    unfold edgeViolations at h
    split at h
    · simp at h
    · dsimp only at h
      split at h
      · simp at h
      · exact .inr ⟨_, _, _, ‹_›, by simpa using h⟩
    · exact .inl ⟨_, _, by simpa using h⟩
  rcases List.mem_append.1 h with h | h
  · obtain ⟨⟨i, n⟩, -, h⟩ := List.mem_flatMap.1 h
    rcases List.mem_append.1 h with h | h
    · obtain ⟨o, -, rfl⟩ := List.mem_map.1 h
      exact .inl ⟨_, _, rfl⟩
    · exact .inr ((hreference h).imp_right .inl)
  · unfold terminatorViolations at h
    split at h
    · simp at h
    · split at h
      · exact .inr (.inr (.inr (.inl ⟨_, by simpa using h⟩)))
      · rcases List.mem_append.1 h with h | h
        · exact .inr (.inr (.inr (.inr (.inl (hcondition h)))))
        · obtain ⟨e, -, h⟩ := List.mem_flatMap.1 h
          exact .inr (.inr (.inr (.inr (.inr (hedge h)))))

namespace Search

def step (g : Graph) : Search → Option Search
  | ⟨_, [], _⟩ => none
  | ⟨seen, b :: rest, reported⟩ =>
    if b ∈ seen then some ⟨seen, rest, reported⟩
    else
      match g.block? b with
      | none => some ⟨b :: seen, rest, reported⟩
      | some B =>
        some
          { seen := b :: seen
            pending := B.referenced.reverse ++ rest
            reported := if B.isTerminated then reported else reported ++ [b] }

inductive Ends (g : Graph) : Nat → Search → Search → Prop
  | over {w : Search} (done : w.step g = none) : Ends g 0 w w
  | turn {n : Nat} {w u v : Search} (next : w.step g = some u) (rest : Ends g n u v) :
      Ends g (n + 1) w v

end Search

namespace Graph

variable {g : Graph} {fresh pending seen reported entries : List BlockId} {b : BlockId}

def Unmet (g : Graph) (fresh seen : List BlockId) : Prop :=
  fresh.Nodup ∧ ∀ b, b ∈ fresh ↔ b ∈ g.blockIds ∧ b ∉ seen

theorem Unmet.erase (h : g.Unmet fresh seen) (b : BlockId) :
    g.Unmet (fresh.erase b) (b :: seen) := by
  refine ⟨h.1.erase b, fun c => ?_⟩
  rw [h.1.mem_erase_iff, h.2 c, List.mem_cons]
  tauto

theorem Unmet.missing (h : g.Unmet fresh seen) (hb : b ∉ g.blockIds) :
    g.Unmet fresh (b :: seen) := by
  refine ⟨h.1, fun c => ?_⟩
  rw [h.2 c, List.mem_cons]
  constructor
  · rintro ⟨hc, hseen⟩
    exact ⟨hc, fun h => h.elim (fun h => hb (h ▸ hc)) hseen⟩
  · rintro ⟨hc, hseen⟩
    exact ⟨hc, fun h => hseen (.inr h)⟩

theorem nodup_blockIds : g.blockIds.Nodup :=
  List.Nodup.map (fun _ _ h => congrArg BlockId.index h) List.nodup_range

theorem nodup_visit (h : fresh.Nodup) : (g.visit fresh pending).Nodup := by
  fun_induction visit g fresh pending with
  | case1 fresh => exact .nil
  | case2 fresh b rest hb ih =>
    refine List.nodup_cons.2 ⟨fun hmem => ?_, ih (h.erase b)⟩
    exact (h.mem_erase_iff.1 (reaches_of_mem_visit hmem).1).1 rfl
  | case3 fresh b rest hb ih => exact ih h

/-- How many turns the loop takes: one for each pending block and one for each reference of a block
that is visited. -/
def turns (g : Graph) (fresh pending : List BlockId) : Nat :=
  pending.length + ((g.visit fresh pending).map fun b => (g.references b).length).sum

theorem ends_visit (g : Graph) (fresh pending : List BlockId) (h : g.Unmet fresh seen)
    (reported : List BlockId) :
    ∃ v, Search.Ends g (g.turns fresh pending) ⟨seen, pending, reported⟩ v ∧
      v.reported = reported ++ (g.visit fresh pending).filter g.unterminated := by
  -- The induction is on the search itself; `seen` grows where `fresh` shrinks.
  fun_induction visit g fresh pending generalizing seen reported with
  | case1 fresh =>
    have hturns : g.turns fresh [] = 0 := by simp [turns, visit]
    rw [hturns]
    exact ⟨_, .over rfl, by simp⟩
  | case2 fresh b rest hb ih =>
    obtain ⟨hthere, hunseen⟩ := (h.2 b).1 hb
    obtain ⟨B, hB⟩ := mem_blockIds.1 hthere
    have hrefs : g.references b = B.referenced := by simp [references, hB]
    obtain ⟨v, hends, hreported⟩ :=
      ih (h.erase b) (if B.isTerminated then reported else reported ++ [b])
    rw [hrefs] at hends
    have hturns : g.turns fresh (b :: rest) =
        g.turns (fresh.erase b) (B.referenced.reverse ++ rest) + 1 := by
      simp only [turns, visit, dif_pos hb, hrefs, List.map_cons, List.sum_cons, List.length_cons,
        List.length_append, List.length_reverse]
      omega
    refine ⟨v, ?_, ?_⟩
    · rw [hturns]
      exact .turn (by simp only [Search.step, if_neg hunseen, hB]) hends
    · have hopen : g.unterminated b = !B.isTerminated := by simp [unterminated, hB]
      rw [hreported, List.filter_cons, hopen]
      cases B.isTerminated <;> simp
  | case3 fresh b rest hb ih =>
    have hturns : g.turns fresh (b :: rest) = g.turns fresh rest + 1 := by
      simp only [turns, visit, dif_neg hb, List.length_cons]
      omega
    rw [hturns]
    by_cases hseen : b ∈ seen
    · obtain ⟨v, hends, hreported⟩ := ih h reported
      exact ⟨v, .turn (by simp only [Search.step, if_pos hseen]) hends, hreported⟩
    · have hmissing : b ∉ g.blockIds := fun hthere => hb ((h.2 b).2 ⟨hthere, hseen⟩)
      obtain ⟨v, hends, hreported⟩ := ih (h.missing hmissing) reported
      have hnone : g.block? b = none :=
        Option.eq_none_iff_forall_ne_some.2 fun B hB => hmissing (mem_blockIds.2 ⟨B, hB⟩)
      exact ⟨v, .turn (by simp only [Search.step, if_neg hseen, hnone]) hends, hreported⟩

inductive Chain (g : Graph) : BlockId → BlockId → Prop
  | here {b : BlockId} {B : Block} (there : g.block? b = some B) : Chain g b b
  | next {e b c : BlockId} {B C : Block} (before : Chain g e b) (source : g.block? b = some B)
      (refers : c ∈ B.referenced) (there : g.block? c = some C) : Chain g e c

theorem chain_iff {e : BlockId} : g.Chain e b ↔ (∃ B, g.block? b = some B) ∧ g.Reaches e b := by
  constructor
  · intro h
    induction h with
    | here hB => exact ⟨⟨_, hB⟩, .refl⟩
    | next _ hB hc hC ih => exact ⟨⟨_, hC⟩, ih.2.tail (mem_references.2 ⟨_, hB, hc⟩)⟩
  · rintro ⟨⟨B, hB⟩, hreach⟩
    induction hreach generalizing B with
    | refl => exact .here hB
    | tail _ hxy ih =>
      obtain ⟨X, hX, hy⟩ := mem_references.1 hxy
      exact .next (ih X hX) hX hy hB

/-- Whatever the graph and the entries are, the loop ends, and it reports a block exactly if the
block is open and a chain of references leads to it from an entry; no block is reported twice. -/
theorem search_exact (g : Graph) (entries : List BlockId) :
    ∃ v : Search,
      Search.Ends g (entries.length +
          ((g.reachable entries).map fun b => (g.references b).length).sum)
        { pending := entries.reverse } v ∧
      g.violations entries = g.blocks.flatMap (·.violations g) ++ v.reported.map .unterminated ∧
      (∀ b, .unterminated b ∉ g.blocks.flatMap (·.violations g)) ∧
      v.reported.Nodup ∧
      ∀ b, b ∈ v.reported ↔ (∃ e ∈ entries, g.Chain e b) ∧
        ∃ B, g.block? b = some B ∧ B.terminator = none ∧ B.isFinal = false := by
  have hunmet : g.Unmet g.blockIds [] := ⟨nodup_blockIds, by simp⟩
  obtain ⟨v, hends, hreported⟩ := g.ends_visit g.blockIds entries.reverse hunmet []
  rw [List.nil_append, ← reachable] at hreported
  refine ⟨v, ?_, ?_, ?_, ?_, ?_⟩
  · simpa only [turns, List.length_reverse, reachable] using hends
  · rw [violations, hreported]
  · intro b hb
    obtain ⟨B, -, hb⟩ := List.mem_flatMap.1 hb
    have hcases := Block.violations_cases hb
    simp at hcases
  · rw [hreported]
    exact (nodup_visit nodup_blockIds).filter _
  · intro b
    rw [hreported, List.mem_filter, mem_reachable, unterminated_eq_true]
    simp only [chain_iff]
    constructor
    · rintro ⟨⟨hthere, e, he, hreach⟩, B, hB, hopen⟩
      refine ⟨⟨e, he, hthere, hreach⟩, B, hB, ?_⟩
      simpa using hopen
    · rintro ⟨⟨e, he, hthere, hreach⟩, B, hB, hopen⟩
      refine ⟨⟨hthere, e, he, hreach⟩, B, hB, ?_⟩
      simpa using hopen

end Graph

end BlockGraph

import BlockGraph.Proofs.Lowering.Expressions

namespace BlockGraph.Lowering

open Builder

variable {b : BlockId} {s s' : State} {u : Unit}

@[simp] theorem waiting_cons (f : LoopFrame) (ls : List LoopFrame) :
    waiting (f :: ls) = f.targets.waiting ++ waiting ls :=
  List.flatMap_cons

@[simp] theorem waiting_append (ls ls' : List LoopFrame) :
    waiting (ls ++ ls') = waiting ls ++ waiting ls' :=
  List.flatMap_append

theorem LoopTargets.Grows.waiting {t t' : LoopTargets} (h : t.Grows t') :
    ∃ N, t'.waiting.Perm (t.waiting ++ N) := by
  cases h with
  | known test exit => exact ⟨[], .rfl⟩
  | queued leaving repeating more again => exact ⟨more ++ again, by simp only [LoopTargets.waiting]; grind⟩

theorem LoopsGrow.waiting {ls ls' : List LoopFrame} (h : LoopsGrow ls ls') :
    ∃ N, (waiting ls').Perm (waiting ls ++ N) := by
  induction h with
  | nil => exact ⟨[], .rfl⟩
  | cons hf _ ih =>
    obtain ⟨N, hN⟩ := hf.targets.waiting
    obtain ⟨N', hN'⟩ := ih
    refine ⟨N ++ N', ?_⟩
    rw [waiting_cons, waiting_cons]
    exact (hN.append hN').trans (by grind)

theorem LoopTargets.enqueue_grows (t : LoopTargets) (kind : LoopJump) (b : BlockId) :
    t.Grows (t.enqueue kind b) := by
  cases t with
  | known test exit => exact .known test exit
  | queued leaving repeating =>
    cases kind with
    | leave => simpa [enqueue] using Grows.queued leaving repeating [b] []
    | again => simpa [enqueue] using Grows.queued leaving repeating [] [b]

theorem LoopTargets.enqueue_waiting (leaving repeating : List BlockId) (kind : LoopJump)
    (b : BlockId) : ((LoopTargets.queued leaving repeating).enqueue kind b).waiting.Perm
      (leaving ++ repeating ++ [b]) := by
  cases kind <;> simp only [enqueue, waiting] <;> grind

def LoopFrame.enqueue (f : LoopFrame) (kind : LoopJump) (b : BlockId) : LoopFrame :=
  { f with targets := f.targets.enqueue kind b }

def LoopJump.target (test exit : BlockId) : LoopJump → BlockId
  | .leave => exit
  | .again => test

theorem modify_findIdx {α : Type} {p : α → Bool} {inner outer : List α} {a : α} (g : α → α)
    (ha : p a = true) (hinner : ∀ c ∈ inner, p c = false) :
    (inner ++ a :: outer).modify ((inner ++ a :: outer).findIdx p) g = inner ++ g a :: outer := by
  induction inner with
  | nil => simp [List.findIdx_cons, ha]
  | cons c inner ih =>
    have hc := hinner c (by simp)
    have htail := ih fun d hd => hinner d (by simp [hd])
    simpa [List.findIdx_cons, hc] using htail

theorem runs_lowerJump {kind : LoopJump} {label : Option String} :
    Runs (lowerJump b kind label) s u s' ↔
      ∃ inner f outer, s.loops = inner ++ f :: outer ∧ f.matches label = true ∧
        (∀ g ∈ inner, g.matches label = false) ∧
        match f.targets with
        | .known test exit => ∃ t, Runs (jump b (LoopJump.target test exit kind)) s.toBuilder () t ∧
            s' = { s with toBuilder := t }
        | .queued _ _ => s' = { s with loops := inner ++ f.enqueue kind b :: outer } := by
  simp only [lowerJump, Runs.bind_iff, Runs.get_iff]
  constructor
  · rintro ⟨s, _, ⟨rfl, rfl⟩, h⟩
    split at h
    · cases label <;> simp at h
    case h_2 l test exit hfind =>
      obtain ⟨hmatch, inner, outer, hloops, hinner⟩ := List.find?_eq_some_iff_append.1 hfind
      refine ⟨inner, _, outer, hloops, hmatch, by simpa using hinner, ?_⟩
      cases kind <;> simpa [LoopJump.target] using h
    case h_3 l leaving repeating hfind =>
      obtain ⟨hmatch, inner, outer, hloops, hinner⟩ := List.find?_eq_some_iff_append.1 hfind
      refine ⟨inner, _, outer, hloops, hmatch, by simpa using hinner, ?_⟩
      obtain rfl := Runs.modify_iff.1 h
      dsimp only
      rw [hloops, modify_findIdx _ hmatch (by simpa using hinner)]
      rfl
  · rintro ⟨inner, ⟨l, targets⟩, outer, hloops, hmatch, hinner, h⟩
    have hfind : s.loops.find? (·.matches label) = some ⟨l, targets⟩ :=
      List.find?_eq_some_iff_append.2 ⟨hmatch, inner, outer, hloops, by simpa using hinner⟩
    refine ⟨s, s, ⟨rfl, rfl⟩, ?_⟩
    rw [hfind]
    cases targets with
    | known test exit => cases kind <;> simpa [LoopJump.target] using h
    | queued leaving repeating =>
      rw [Runs.modify_iff, hloops, modify_findIdx _ hmatch hinner]
      exact h

theorem loops_lowerJump {kind : LoopJump} {label : Option String} (h : Runs (lowerJump b kind label) s u s')
    {f : LoopFrame} (hf : s.loops[s.loops.findIdx (·.matches label)]? = some f) :
    s'.loops = s.loops.set (s.loops.findIdx (·.matches label)) (f.enqueue kind b) := by
  obtain ⟨inner, g, outer, hloops, hmatch, hinner, h⟩ := runs_lowerJump.1 h
  obtain rfl : g = f := by
    rw [← List.find?_eq_getElem?_findIdx] at hf
    exact Option.some.inj ((List.find?_eq_some_iff_append.2
      ⟨hmatch, inner, outer, hloops, by simpa using hinner⟩).symm.trans hf)
  have hset : s.loops.set (s.loops.findIdx (·.matches label)) (g.enqueue kind b) =
      inner ++ g.enqueue kind b :: outer := by
    rw [← modify_findIdx (·.enqueue kind b) hmatch hinner, ← hloops, List.modify_eq_set_getElem?, hf]
    rfl
  split at h
  case h_1 test exit htargets =>
    obtain ⟨t, -, rfl⟩ := h
    have henqueue : g.enqueue kind b = g := by
      cases g
      simp_all [LoopFrame.enqueue, LoopTargets.enqueue]
    rw [hset, henqueue, ← hloops]
  · rw [h, hset]

theorem shifts_lowerJump {kind : LoopJump} {label : Option String}
    (h : Runs (lowerJump b kind label) s u s') : Shifts [] [] [b] s [] s' := by
  obtain ⟨inner, f, outer, hloops, -, -, h⟩ := runs_lowerJump.1 h
  split at h
  · obtain ⟨t, ht, rfl⟩ := h
    exact .of_moves (moves_jump ht).1
  case h_2 leaving repeating htargets =>
    subst h
    have hgrow : LoopFrame.Grows f (f.enqueue kind b) := ⟨rfl, f.targets.enqueue_grows kind b⟩
    refine ⟨⟨[], [b], .refl _ _, ?_, by simp⟩, ?_, fun _ _ => rfl, fun _ _ => rfl, fun hs => ?_⟩
    · have hwait := LoopTargets.enqueue_waiting leaving repeating kind b
      simp only [hloops, waiting_append, waiting_cons, LoopFrame.enqueue, htargets]
      refine (hwait.append_right (waiting outer)).append_left (waiting inner) |>.trans ?_
      simp only [LoopTargets.waiting]
      grind
    · rw [hloops]
      exact List.rel_append (LoopsGrow.refl inner) (.cons hgrow (LoopsGrow.refl outer))
    · exact ⟨hs.entry, hs.entry_inj, hs.layout, hs.layout_inj⟩

@[simp] theorem runs_pushLoop {f : LoopFrame} :
    Runs (pushLoop f) s u s' ↔ s' = { s with loops := f :: s.loops } :=
  Runs.modify_iff

@[simp] theorem runs_popLoop : Runs popLoop s u s' ↔ s' = { s with loops := s.loops.tail } :=
  Runs.modify_iff

@[simp] theorem runs_popQueued {q : List BlockId × List BlockId} :
    Runs popQueued s q s' ↔
      ∃ label ls, s.loops = ⟨label, .queued q.1 q.2⟩ :: ls ∧ s' = { s with loops := ls } := by
  simp only [popQueued, Runs.bind_iff, Runs.get_iff]
  constructor
  · rintro ⟨s, _, ⟨rfl, rfl⟩, h⟩
    split at h
    case h_1 label leaving repeating ls hloops =>
      simp only [Runs.bind_iff, runs_popLoop, Runs.pure_iff] at h
      obtain ⟨-, _, rfl, rfl, rfl⟩ := h
      exact ⟨label, ls, hloops, by simp [hloops]⟩
    case h_2 => simp at h
  · rintro ⟨label, ls, hloops, rfl⟩
    refine ⟨s, s, ⟨rfl, rfl⟩, ?_⟩
    rw [hloops]
    simp [hloops]

theorem Shifts.pop {fs : List FunctionId} {cs : List ClassId} {X Y : List BlockId} {f : LoopFrame}
    (h : Shifts fs cs X { s with loops := f :: s.loops } Y s') (hf : f.targets.waiting = []) :
    ∃ f' ls, s'.loops = f' :: ls ∧ f.Grows f' ∧
      Shifts fs cs X s (Y ++ f'.targets.waiting) { s' with loops := ls } := by
  obtain ⟨E, N, hmoves, hwait, hentries⟩ := h.moves
  obtain ⟨f', ls, hf', hls, hloops⟩ := List.forall₂_cons_left_iff.1 h.loops
  obtain ⟨N', hN'⟩ := LoopsGrow.waiting hls
  refine ⟨f', ls, hloops, hf', ⟨E, N', ?_, hN', hentries⟩, hls, h.functions, h.classes, fun hs => ?_⟩
  · have hperm : (f'.targets.waiting ++ N').Perm N := by
      rw [hloops, waiting_cons, waiting_cons, hf, List.nil_append] at hwait
      have hall := (hN'.append_left f'.targets.waiting).symm.trans hwait
      have hcancel : (waiting s.loops ++ (f'.targets.waiting ++ N')).Perm (waiting s.loops ++ N) :=
        List.Perm.trans (by grind) hall
      exact (List.perm_append_left_iff _).1 hcancel
    refine hmoves.perm .rfl ?_
    rw [List.append_assoc]
    exact (hperm.append_left Y).symm
  · have hs' := h.registered ⟨hs.entry, hs.entry_inj, hs.layout, hs.layout_inj⟩
    exact ⟨hs'.entry, hs'.entry_inj, hs'.layout, hs'.layout_inj⟩

end BlockGraph.Lowering

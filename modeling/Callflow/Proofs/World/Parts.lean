import Callflow.Proofs.World.Calls
import Callflow.Proofs.World.Clients

/-!
# The parts of an evaluation

An evaluation evaluates the activities inside the one that it is given, each in the world that it has
got into by then: its `Part`s. `World.parts` lists them; it follows `World.evaluate`. A part that does
not resolve is the last one, and the whole evaluation ends like it (`evaluate_parts`): nothing is
evaluated any more but what is inside of it (`parts_own`).
-/

namespace Callflow

variable {σ : Type}

/-- An activity that is evaluated, with all that its evaluation depends on. -/
structure Part (σ : Type) where
  world : World σ
  inUse : List Ref
  activity : Activity
  frame : Frame
  next : Continuation σ

/-- How the evaluation of a part ends. -/
def Part.result (p : Part σ) : Evaluation σ :=
  World.evaluate p.inUse p.activity p.frame p.next p.world

/-- Whether an evaluation has resolved. -/
def World.Resolved : Except Stop Progress → Prop
  | .ok (.resolved _ _) => True
  | _ => False

/-- The outcome that an evaluation hands on, if it has resolved. -/
def World.handed? : Except Stop Progress → Option Outcome
  | .ok (.resolved outcome _) => some outcome
  | _ => none

theorem World.handed?_of_not_resolved {result : Except Stop Progress}
    (h : ¬ World.Resolved result) : World.handed? result = none := by
  unfold World.handed?
  split
  · exact absurd trivial h
  · rfl

namespace World

/-- The activities that an evaluation comes upon, beginning with the one that it is given. -/
def parts (inUse : List Ref) : Activity → Frame → Continuation σ → World σ → List (Part σ)
  | .defineService name body, frame, next, w =>
    let (store, id) := w.store.newService name (some frame.scope)
    let inner := frame.inside id ⟨w.store.scopes.size⟩
    let u := { w with store := store.bind frame.scope name (.service id) }
    ⟨w, inUse, .defineService name body, frame, next⟩ ::
      ofSteps inUse body inner .unit (.service id next) u
  | .sequence steps, frame, next, w =>
    ⟨w, inUse, .sequence steps, frame, next⟩ :: ofSteps inUse steps frame .unit next w
  | .retry body limit delay, frame, next, w =>
    ⟨w, inUse, .retry body limit delay, frame, next⟩ ::
      match Time.checkDelay delay.base, RetryState.start limit delay with
      | .ok (), .ok state => parts inUse body frame (.retry state.begin body frame next) w
      | _, _ => []
  | .ignoreError body, frame, next, w =>
    ⟨w, inUse, .ignoreError body, frame, next⟩ :: parts inUse body frame (.ignore next) w
  | activity, frame, next, w => [⟨w, inUse, activity, frame, next⟩]
where
  -- The parts of the steps of a sequence.
  ofSteps (inUse : List Ref) :
      List Activity → Frame → Value → Continuation σ → World σ → List (Part σ)
    | [], _, _, _, _ => []
    | step :: rest, frame, _, next, w =>
      parts inUse step frame (.steps rest frame next) w ++
        match evaluate inUse step frame (.steps rest frame next) w with
        | (w, .ok (.resolved (.success value) _)) => ofSteps inUse rest frame value next w
        | _ => []

/-- An evaluation in a world that comes upon a part: it does so without time passing, and if the part
does not resolve, it ends like the part; otherwise what follows is harmless. -/
structure Reaches (w : World σ) (p : Part σ) (e : Evaluation σ) : Prop where
  quiet : Quiet w p.world
  tended : w.Tended → p.world.Tended
  unresolved : ¬ Resolved p.result.2 → e = p.result
  after : Harmless p.result.1 e.1

theorem Quiet.trans {w v u : World σ} (h : Quiet w v) (k : Quiet v u) : Quiet w u := by
  rcases h with ⟨deeds, hpath, hquiet⟩
  rcases k with ⟨more, kpath, kquiet⟩
  refine ⟨deeds ++ more, hpath.trans kpath, ?_⟩
  intro d hd
  rcases List.mem_append.1 hd with hd | hd
  · exact hquiet d hd
  · exact kquiet d hd

theorem Still.quiet {w v : World σ} (h : Still w v) : Quiet w v := by
  rcases h.deeds with ⟨deeds, hpath, hstill⟩
  exact ⟨deeds, hpath, fun d hd => Deed.isQuiet_of_isStill (hstill d hd)⟩

namespace Reaches

variable {w v : World σ} {p : Part σ} {e : Evaluation σ}

theorem itself (p : Part σ) : Reaches p.world p p.result :=
  ⟨.refl _, id, fun _ => rfl, .refl _⟩

theorem before (h : Reaches v p e) (k : Quiet w v) (htended : w.Tended → v.Tended) :
    Reaches w p e :=
  ⟨k.trans h.quiet, fun hw => h.tended (htended hw), h.unresolved, h.after⟩

/-- What follows an evaluation that resolves does not matter to one that does not. -/
theorem followed (h : Reaches w p e) {e' : Evaluation σ} (hresolved : Resolved e.2)
    (hafter : Harmless e.1 e'.1) : Reaches w p e' := by
  refine ⟨h.quiet, h.tended, fun hunresolved => ?_, h.after.trans hafter⟩
  rw [h.unresolved hunresolved] at hresolved
  exact absurd hresolved hunresolved

/-- One more attempt of a retry. -/
theorem attempt {inUse : List Ref} {state : RetryState} {body : Activity} {frame : Frame}
    {next : Continuation σ}
    (h : Reaches w p (evaluate inUse body frame (.retry state.begin body frame next) w)) :
    Reaches w p (World.attempt inUse state body frame next w) := by
  unfold World.attempt
  dsimp only
  split
  · rename_i v outcome held hv
    rw [hv] at h
    exact h.followed trivial (afterAttempt_harmless ..)
  · exact h

end Reaches

-- Both proofs follow the recursion of the evaluation, which the lists of parts share.
mutual

theorem evaluate_parts (inUse : List Ref) (activity : Activity) (frame : Frame)
    (next : Continuation σ) (w : World σ) :
    ∀ p ∈ parts inUse activity frame next w, Reaches w p (evaluate inUse activity frame next w) := by
  cases activity with
  | defineService name body =>
    have hdefined : Quiet w { w with
        store := ((w.store.newService name (some frame.scope)).1).bind frame.scope name
          (.service (w.store.newService name (some frame.scope)).2) } :=
      ((Still.service w name (some frame.scope)).trans (.define (.bind _ _ _) rfl)).quiet
    have hbody := evaluateSteps_parts inUse body
      (frame.inside (w.store.newService name (some frame.scope)).2 ⟨w.store.scopes.size⟩) .unit
      (.service (w.store.newService name (some frame.scope)).2 next)
      { w with
        store := ((w.store.newService name (some frame.scope)).1).bind frame.scope name
          (.service (w.store.newService name (some frame.scope)).2) }
    intro p hp
    rw [parts] at hp
    rcases List.mem_cons.1 hp with rfl | hp
    · exact Reaches.itself ⟨w, inUse, .defineService name body, frame, next⟩
    · have hbody := (hbody p hp).before hdefined (Harmless.of_same rfl rfl).tended
      rw [evaluate]
      dsimp only
      split
      · rename_i v value held hv
        rw [hv] at hbody
        exact hbody.followed trivial (.refl _)
      · rename_i v cause held hv
        rw [hv] at hbody
        exact hbody.followed trivial (.refl _)
      · exact hbody
  | sequence steps =>
    intro p hp
    rw [parts] at hp
    rcases List.mem_cons.1 hp with rfl | hp
    · exact Reaches.itself ⟨w, inUse, .sequence steps, frame, next⟩
    · exact evaluateSteps_parts inUse steps frame .unit next w p hp
  | retry body limit delay =>
    intro p hp
    rw [parts] at hp
    rcases List.mem_cons.1 hp with rfl | hp
    · exact Reaches.itself ⟨w, inUse, .retry body limit delay, frame, next⟩
    · rw [evaluate]
      cases hcheck : Time.checkDelay delay.base with
      | error e => simp [hcheck] at hp
      | ok _ =>
        cases hstart : RetryState.start limit delay with
        | error e => simp [hcheck, hstart] at hp
        | ok state =>
          rw [hcheck, hstart] at hp
          exact .attempt (evaluate_parts inUse body frame _ w p hp)
  | ignoreError body =>
    intro p hp
    rw [parts] at hp
    rcases List.mem_cons.1 hp with rfl | hp
    · exact Reaches.itself ⟨w, inUse, .ignoreError body, frame, next⟩
    · have hbody := evaluate_parts inUse body frame (.ignore next) w p hp
      rw [evaluate]
      split
      · rename_i v cause held hv
        rw [hv] at hbody
        exact hbody.followed trivial (.refl _)
      · exact hbody
  | _ =>
    intro p hp
    simp only [parts, List.mem_singleton] at hp
    rw [hp]
    exact Reaches.itself ⟨w, inUse, _, frame, next⟩

theorem evaluateSteps_parts (inUse : List Ref) (steps : List Activity) (frame : Frame)
    (last : Value) (next : Continuation σ) (w : World σ) :
    ∀ p ∈ parts.ofSteps inUse steps frame last next w,
      Reaches w p (evaluate.evaluateSteps inUse steps frame last next w) := by
  cases steps with
  | nil => simp [parts.ofSteps]
  | cons step rest =>
    have hstep := evaluate_parts inUse step frame (.steps rest frame next) w
    have hquiet := evaluate_quiet inUse step frame (.steps rest frame next) w
    have hharmless := evaluate_harmless inUse step frame (.steps rest frame next) w
    intro p hp
    rw [parts.ofSteps] at hp
    rw [evaluate.evaluateSteps]
    rcases List.mem_append.1 hp with hp | hp
    · have hfirst := hstep p hp
      split
      · rename_i v value held hv
        rw [hv] at hfirst
        exact hfirst.followed trivial (evaluateSteps_harmless ..)
      · rename_i v cause held hv
        rw [hv] at hfirst
        exact hfirst.followed trivial (.refl _)
      · exact hfirst
    · -- The step has resolved to a value, and the part is in one of the next steps.
      split at hp
      · rename_i v value held hv
        rw [hv] at hquiet hharmless
        rw [hv]
        exact (evaluateSteps_parts inUse rest frame value next v p hp).before hquiet
          hharmless.tended
      · cases hp

end

/-- The activities that the evaluation of a part comes upon, beginning with its own. -/
def own (p : Part σ) : List (Part σ) := parts p.inUse p.activity p.frame p.next p.world

-- The lists of parts follow the evaluation, and so do both proofs.
mutual

theorem parts_own (inUse : List Ref) (activity : Activity) (frame : Frame) (next : Continuation σ)
    (w : World σ) : ∀ p ∈ parts inUse activity frame next w, ¬ Resolved p.result.2 →
      own p <:+ parts inUse activity frame next w := by
  cases activity with
  | defineService name body =>
    intro p hp hunresolved
    rw [parts] at hp
    rcases List.mem_cons.1 hp with rfl | hp
    · exact List.suffix_rfl
    · rw [parts]
      exact (ofSteps_own _ _ _ _ _ _ p hp hunresolved).trans (List.suffix_cons ..)
  | sequence steps =>
    intro p hp hunresolved
    rw [parts] at hp
    rcases List.mem_cons.1 hp with rfl | hp
    · exact List.suffix_rfl
    · rw [parts]
      exact (ofSteps_own _ _ _ _ _ _ p hp hunresolved).trans (List.suffix_cons ..)
  | retry body limit delay =>
    intro p hp hunresolved
    rw [parts] at hp
    rcases List.mem_cons.1 hp with rfl | hp
    · exact List.suffix_rfl
    · rw [parts]
      refine List.IsSuffix.trans ?_ (List.suffix_cons ..)
      cases hcheck : Time.checkDelay delay.base with
      | error e => simp [hcheck] at hp
      | ok _ =>
        cases hstart : RetryState.start limit delay with
        | error e => simp [hcheck, hstart] at hp
        | ok state =>
          rw [hcheck, hstart] at hp
          exact parts_own inUse body frame _ w p hp hunresolved
  | ignoreError body =>
    intro p hp hunresolved
    rw [parts] at hp
    rcases List.mem_cons.1 hp with rfl | hp
    · exact List.suffix_rfl
    · rw [parts]
      exact (parts_own inUse body frame _ w p hp hunresolved).trans (List.suffix_cons ..)
  | _ =>
    intro p hp _
    simp only [parts, List.mem_singleton] at hp
    rw [hp]
    exact List.suffix_rfl

theorem ofSteps_own (inUse : List Ref) (steps : List Activity) (frame : Frame) (last : Value)
    (next : Continuation σ) (w : World σ) :
    ∀ p ∈ parts.ofSteps inUse steps frame last next w, ¬ Resolved p.result.2 →
      own p <:+ parts.ofSteps inUse steps frame last next w := by
  cases steps with
  | nil => simp [parts.ofSteps]
  | cons step rest =>
    have hstep := evaluate_parts inUse step frame (.steps rest frame next) w
    have hown := parts_own inUse step frame (.steps rest frame next) w
    intro p hp hunresolved
    rw [parts.ofSteps] at hp ⊢
    rcases List.mem_append.1 hp with hp | hp
    · -- The step ends like the part, so no further one is evaluated.
      have hlast := (hstep p hp).unresolved hunresolved
      rw [hlast]
      split
      · rename_i v value held hv
        rw [hv] at hunresolved
        exact absurd trivial hunresolved
      · rw [List.append_nil]
        exact hown p hp hunresolved
    · refine List.IsSuffix.trans ?_ (List.suffix_append ..)
      split at hp
      · rename_i v value held hv
        exact ofSteps_own inUse rest frame value next v p hp hunresolved
      · cases hp

end

end World
end Callflow

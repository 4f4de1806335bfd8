import Callflow.Proofs.World.Plain

/-!
# Handing the outcome of a step to a loop

A loop takes the steps of a sequence one by one. Each step is evaluated with a continuation that
looks at a cell of its own: as long as the evaluation of the step has not returned, it leaves the
outcome in the cell, and the loop finds it there and goes on; afterwards, when the loop has left the
step suspended, it goes on by itself (`Handoff.receive`). `Handoff.evaluate` evaluates an activity
with such loops.

Every loop finds its cell as the result of the step has it, and leaves it detached
(`evaluate_handoff`, `steps_handoff`): so the loops do the same as `World.evaluate`, whose loop is
told the result, and as the plain definition.
-/

namespace Callflow

variable {σ : Type}

/-- What a step and the loop that has started it share. -/
inductive Cell where
  -- The evaluation of the step has not returned yet.
  | running
  -- The step has resolved before.
  | done (outcome : Outcome)
  -- The evaluation has returned; if the step is suspended, it goes on by itself.
  | detached

namespace Handoff

/-- A world, and the cells of the loops that have been started. -/
abbrev State (σ : Type) := World σ × List Cell

/-- The state that a call leaves behind, and whether it stops for good. -/
abbrev Return (σ : Type) := State σ × Except Stop Unit

/-- A continuation that may look at the cells. -/
abbrev Receiver (σ : Type) := Outcome → List Ref → State σ → Return σ

/-- What a call returns when it hands no outcome on. -/
def returning (cells : List Cell) : Answers σ (Return σ) where
  suspended w := ((w, cells), .ok ())
  stopped w stop := ((w, cells), .error stop)

/-- What a call returns after an evaluation, which calls its continuation if it has resolved. -/
def into (cells : List Cell) (k : Receiver σ) (e : Evaluation σ) : Return σ :=
  (returning cells).of (fun w outcome held => k outcome held (w, cells)) e

/-- A continuation that looks at nothing but the world. -/
def lift (k : Callflow.Receiver σ (World σ × Except Stop Unit)) : Receiver σ :=
  fun outcome held s => (((k s.1 outcome held).1, s.2), (k s.1 outcome held).2)

/-- The continuation of a step: it leaves the outcome in its cell while the loop waits for it, and
goes on otherwise. -/
def receive (cell : Nat) (goOn : Receiver σ) : Receiver σ := fun outcome held s =>
  match s.2[cell]? with
  | some .running => ((s.1, s.2.set cell (.done outcome)), .ok ())
  | _ => goOn outcome held s

/-- Evaluates an activity, calling `k` with its outcome. What is suspended waits for `next`. -/
def evaluate (inUse : List Ref) :
    Activity → Frame → Continuation σ → Receiver σ → State σ → Return σ
  | .defineService name body, frame, next, k, (w, cells) =>
    let (store, id) := w.store.newService name (some frame.scope)
    let inner := frame.inside id ⟨w.store.scopes.size⟩
    let w := { w with store := store.bind frame.scope name (.service id) }
    steps inUse body inner .unit (.service id next)
      (fun outcome held s =>
        match outcome with
        | .success value => k (.success (.service id)) (value.refs ++ held) s
        | .failure cause => k (.failure cause) (.service id :: held) s) (w, cells)
  | .sequence body, frame, next, k, s => steps inUse body frame .unit next k s
  | .retry body limit delay, frame, next, k, (w, cells) =>
    match Time.checkDelay delay.base, RetryState.start limit delay with
    | .error e, _ => (returning cells).stopped w (.error (.scheduling e))
    | .ok (), .error e => (returning cells).stopped w (.error (.program e))
    | .ok (), .ok state =>
      let state := state.begin
      evaluate inUse body frame (.retry state body frame next)
        (fun outcome held s =>
          into s.2 k (s.1.afterAttempt state body frame next held outcome)) (w, cells)
  | .ignoreError body, frame, next, k, s =>
    evaluate inUse body frame (.ignore next)
      (fun outcome held s =>
        match outcome with
        | .success value => k (.success value) held s
        | .failure _ => k (.success .unit) held s) s
  | .defineOperation name body, frame, _, k, (w, cells) =>
    into cells k (w.defineOperation name body frame)
  | .defineClient name period body, frame, _, k, (w, cells) =>
    into cells k (w.defineClient name period body frame)
  | .trigger target operation, frame, next, k, (w, cells) =>
    into cells k (w.trigger inUse target operation frame next)
  | .query target operation timeout, frame, next, k, (w, cells) =>
    into cells k (w.query inUse target operation timeout frame next)
  | .think duration, _, next, k, (w, cells) =>
    into cells k (w.suspend duration .think (.wake next))
  | .fail, _, _, k, s => k (.failure .injected) [] s
where
  -- Takes the steps of a sequence in a loop.
  steps (inUse : List Ref) :
      List Activity → Frame → Value → Continuation σ → Receiver σ → State σ → Return σ
    | [], frame, last, _, k, s => k (.success last) frame.refs s
    | step :: rest, frame, last, next, k, (w, cells) =>
      let cell := cells.length
      let goOn : Receiver σ := fun outcome _ s =>
        match outcome with
        | .success value => steps inUse rest frame value next k s
        | .failure cause => k (.failure cause) frame.refs s
      match evaluate inUse step frame (.steps rest frame next) (receive cell goOn)
          (w, cells ++ [.running]) with
      | (s, .error stop) => (s, .error stop)
      | ((w, cells), .ok ()) =>
        let found := cells[cell]?
        let cells := cells.set cell .detached
        match found with
        | some (.done (.success value)) => steps inUse rest frame value next k (w, cells)
        | some (.done (.failure cause)) =>
          k (.failure cause) (frame.refs ++ last.refs) (w, cells)
        | _ => ((w, cells), .ok ())

/-! ## What the loops leave behind -/

theorem cell_of_append (cells new : List Cell) (c : Cell) :
    (cells ++ [c] ++ new)[cells.length]? = some c := by
  simp

theorem set_of_append (cells new : List Cell) (c d : Cell) :
    (cells ++ [c] ++ new).set cells.length d = cells ++ [d] ++ new := by
  simp

/-- A call returns what is made of the result of an evaluation, with some cells more, all of them
detached unless it stops for good. -/
def Agrees (cells : List Cell) (k : Receiver σ) (r : Return σ) (e : Evaluation σ) : Prop :=
  ∃ new, r = into (cells ++ new) k e ∧
    ((∀ stop, e.2 ≠ .error stop) → ∀ cell ∈ new, cell = .detached)

theorem agrees_into (cells : List Cell) (k : Receiver σ) (e : Evaluation σ) :
    Agrees cells k (into cells k e) e :=
  ⟨[], by rw [List.append_nil], by simp⟩

/-- What is made of a part of an evaluation, with the continuation that goes on from there. -/
theorem Agrees.then {cells : List Cell} {k k' : Receiver σ} {r : Return σ} {e e' : Evaluation σ}
    (h : Agrees cells k' r e') (hinto : ∀ cells, into cells k' e' = into cells k e)
    (hstop : ∀ stop, e'.2 = .error stop → e.2 = .error stop) : Agrees cells k r e := by
  rcases h with ⟨new, hr, hnew⟩
  refine ⟨new, hr.trans (hinto _), ?_⟩
  intro hnot
  exact hnew fun stop he => hnot stop (hstop stop he)

/-- Detached cells may have been there before. -/
theorem Agrees.before {cells earlier : List Cell} {k : Receiver σ} {r : Return σ}
    {e : Evaluation σ} (h : Agrees (cells ++ earlier) k r e)
    (hearlier : ∀ cell ∈ earlier, cell = .detached) : Agrees cells k r e := by
  rcases h with ⟨new, hr, hnew⟩
  refine ⟨earlier ++ new, by rw [← List.append_assoc]; exact hr, ?_⟩
  intro hnot cell hcell
  rcases List.mem_append.1 hcell with hcell | hcell
  · exact hearlier cell hcell
  · exact hnew hnot cell hcell

-- Both proofs follow the recursion of the evaluation.
mutual

theorem evaluate_handoff (inUse : List Ref) (activity : Activity) (frame : Frame)
    (next : Continuation σ) (k : Receiver σ) (w : World σ) (cells : List Cell) :
    Agrees cells k (evaluate inUse activity frame next k (w, cells))
      (World.evaluate inUse activity frame next w) := by
  cases activity with
  | defineService name body =>
    rw [evaluate, World.evaluate]
    have hbody := fun inner id k v =>
      steps_handoff inUse body inner .unit (.service id next) k v cells
    dsimp only
    generalize ({ w with store := _ } : World σ) = v
    refine (hbody _ _ _ v).then ?_ ?_ <;>
      generalize World.evaluate.evaluateSteps _ _ _ _ _ _ = e
    · intro cells
      rcases e with ⟨v, _ | _ | ⟨_ | _, held⟩⟩ <;> rfl
    · rcases e with ⟨v, _ | _ | ⟨_ | _, held⟩⟩
      · exact fun _ => id
      · exact fun _ => id
      · exact fun _ => nofun
      · exact fun _ => nofun
  | sequence body =>
    rw [evaluate, World.evaluate]
    exact steps_handoff inUse body frame .unit next k w cells
  | retry body limit delay =>
    rw [evaluate, World.evaluate]
    cases Time.checkDelay delay.base with
    | error e => exact agrees_into cells k (w.refuse e)
    | ok _ =>
      cases RetryState.start limit delay with
      | error e => exact agrees_into cells k (w.mistake e)
      | ok state =>
        dsimp only
        refine (evaluate_handoff inUse body frame _ _ w cells).then ?_ ?_ <;>
          generalize World.evaluate _ _ _ _ _ = e
        · intro cells
          rcases e with ⟨v, _ | _ | ⟨outcome, held⟩⟩ <;> rfl
        · rcases e with ⟨v, _ | _ | ⟨outcome, held⟩⟩
          · exact fun _ => id
          · exact fun _ => id
          · exact fun _ => nofun
  | ignoreError body =>
    rw [evaluate, World.evaluate]
    refine (evaluate_handoff inUse body frame _ _ w cells).then ?_ ?_ <;>
      generalize World.evaluate _ _ _ _ _ = e
    · intro cells
      rcases e with ⟨v, _ | _ | ⟨_ | _, held⟩⟩ <;> rfl
    · rcases e with ⟨v, _ | _ | ⟨_ | _, held⟩⟩
      · exact fun _ => id
      · exact fun _ => id
      · exact fun _ => id
      · exact fun _ => nofun
  | fail =>
    rw [evaluate, World.evaluate]
    exact agrees_into cells k (w, .ok (.resolved (.failure .injected) []))
  | _ =>
    rw [evaluate, World.evaluate]
    exact agrees_into cells k _

theorem steps_handoff (inUse : List Ref) (body : List Activity) (frame : Frame) (last : Value)
    (next : Continuation σ) (k : Receiver σ) (w : World σ) (cells : List Cell) :
    Agrees cells k (evaluate.steps inUse body frame last next k (w, cells))
      (World.evaluate.evaluateSteps inUse body frame last next w) := by
  cases body with
  | nil =>
    rw [evaluate.steps, World.evaluate.evaluateSteps]
    exact agrees_into cells k (w, .ok (.resolved (.success last) frame.refs))
  | cons step rest =>
    rw [evaluate.steps, World.evaluate.evaluateSteps]
    dsimp only
    rcases evaluate_handoff inUse step frame (.steps rest frame next) _ w (cells ++ [.running]) with
      ⟨new, hr, hnew⟩
    rw [hr]
    generalize World.evaluate inUse step frame (.steps rest frame next) w = e at hnew ⊢
    have hdetached (h : ∀ stop, e.2 ≠ .error stop) :
        ∀ cell ∈ [.detached] ++ new, cell = .detached := by
      intro cell hcell
      rcases List.mem_cons.1 hcell with rfl | hcell
      · rfl
      · exact hnew h cell hcell
    rcases e with ⟨v, stop | _ | ⟨value | cause, held⟩⟩
    · refine ⟨[.running] ++ new, ?_, fun hnot => absurd rfl (hnot stop)⟩
      rw [← List.append_assoc]
      rfl
    · -- The cell is as the loop has made it: the step is suspended.
      simp only [into, returning, Answers.of, cell_of_append, set_of_append]
      refine ⟨[.detached] ++ new, ?_, fun _ => hdetached nofun⟩
      rw [← List.append_assoc]
      rfl
    · -- The step has left its value in the cell.
      simp only [into, Answers.of, receive, cell_of_append, set_of_append]
      have hrest := steps_handoff inUse rest frame value next k v (cells ++ [.detached] ++ new)
      rw [List.append_assoc] at hrest ⊢
      exact hrest.before (hdetached nofun)
    · simp only [into, Answers.of, receive, cell_of_append, set_of_append]
      have hgone := agrees_into (cells ++ [.detached] ++ new) k
        (v, .ok (.resolved (.failure cause) (frame.refs ++ last.refs)))
      rw [List.append_assoc] at hgone ⊢
      exact hgone.before (hdetached nofun)

end

/-- The continuation of a step whose cell has been detached goes on by itself, whatever cells have
come since. -/
theorem receive_of_detached {cells new : List Cell} (h : ∀ cell ∈ new, cell = .detached) {i : Nat}
    (hcells : cells.length ≤ i) (hnew : i < (cells ++ new).length) (later : List Cell)
    (goOn : Receiver σ) (outcome : Outcome) (held : List Ref) (w : World σ) :
    receive i goOn outcome held (w, cells ++ new ++ later) =
      goOn outcome held (w, cells ++ new ++ later) := by
  have hcell : (cells ++ new ++ later)[i]? = some .detached := by
    rw [List.getElem?_append_left hnew, List.getElem?_append_right hcells]
    have hlt : i - cells.length < new.length := by
      rw [List.length_append] at hnew
      omega
    rw [List.getElem?_eq_getElem hlt, h _ (List.getElem_mem hlt)]
  simp only [receive, hcell]

/-- Under a final continuation that looks at the world only, the loops return what the plain
definition does; unless it stops for good, the continuations of the steps that the loops have taken
go on by themselves from then on. -/
theorem steps_eq_plain (inUse : List Ref) (body : List Activity) (frame : Frame) (last : Value)
    (next : Continuation σ) (k : Callflow.Receiver σ (World σ × Except Stop Unit)) (w : World σ)
    (cells : List Cell) :
    ∃ new,
      evaluate.steps inUse body frame last next (lift k) (w, cells) =
        (((Plain.evaluate.steps .returning inUse body frame last next k w).1, cells ++ new),
          (Plain.evaluate.steps .returning inUse body frame last next k w).2) ∧
      ((Plain.evaluate.steps .returning inUse body frame last next k w).2 = .ok () →
        ∀ i, cells.length ≤ i → i < (cells ++ new).length → ∀ later goOn outcome held (v : World σ),
          receive i goOn outcome held (v, cells ++ new ++ later) =
            goOn outcome held (v, cells ++ new ++ later)) := by
  rcases steps_handoff inUse body frame last next (lift k) w cells with ⟨new, hr, hnew⟩
  rw [Plain.steps_plain, hr]
  generalize World.evaluate.evaluateSteps inUse body frame last next w = e at hnew ⊢
  refine ⟨new, ?_, ?_⟩
  · rcases e with ⟨v, _ | _ | ⟨outcome, held⟩⟩ <;> rfl
  · intro hok i hcells hlt later goOn outcome held v
    refine receive_of_detached (hnew ?_) hcells hlt later goOn outcome held v
    rintro stop hstop
    rcases e with ⟨u, _ | _ | ⟨_, _⟩⟩
    · cases hok
    · cases hstop
    · cases hstop

end Handoff
end Callflow

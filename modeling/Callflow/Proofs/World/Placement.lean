import Callflow.Proofs.Store.Resolution
import Callflow.Proofs.World.Rest

/-!
# Where activities are evaluated

What is evaluated without interruption of the control flow belongs to one `Opening`: the host
evaluates an activity, the body of an operation serves a request, or the body of a client is
evaluated. However often the evaluation is suspended and resumed, an activity of it stands in the
text of that body, with some definitions of services around it (`Activity.Lies`); these have been
evaluated before, and are not finished yet. The innermost one tells the frame (`Opening.frame`), and
the continuation has all of them in their order (`Opening.Stands`).

`World.evaluate_placed` says that an evaluation which begins in its place stays there: all its parts
are in their places (`Part.Placed`), and whatever it leaves behind stands in its place as well
(`Opening.Stood`).
-/

namespace Callflow

open Store (Grows)

variable {σ : Type}

/-! ## In the text of a program -/

/-- An activity stands in the text of another one, with some definitions of services around it, the
innermost one first. Bodies of operations and of clients are other texts. -/
inductive Activity.Lies (root : Activity) : List Activity → Activity → Prop where
  | root : Lies root [] root
  | service {around : List Activity} {name : String} {body : List Activity} {a : Activity} :
      Lies root around (.defineService name body) → a ∈ body →
        Lies root (.defineService name body :: around) a
  | sequence {around steps : List Activity} {a : Activity} :
      Lies root around (.sequence steps) → a ∈ steps → Lies root around a
  | retry {around : List Activity} {body : Activity} {limit : Nat} {delay : Delay} :
      Lies root around (.retry body limit delay) → Lies root around body
  | ignoreError {around : List Activity} {body : Activity} :
      Lies root around (.ignoreError body) → Lies root around body

/-! ## In an evaluation -/

/-- An evaluation that begins: of which activity, where, by whom, and for whom. -/
structure Opening (σ : Type) where
  root : Activity
  scope : ScopeId
  caller : Caller
  next : Continuation σ

namespace Opening

/-- The frame inside of some definitions of services. -/
def frame (o : Opening σ) : List (Part σ) → Frame
  | [] => .plain o.scope o.caller
  | p :: _ => ⟨p.scope, some p.service, o.caller⟩

theorem frame_caller (o : Opening σ) (around : List (Part σ)) :
    (o.frame around).caller = o.caller := by
  cases around <;> rfl

/-- A continuation stands in an evaluation, inside of some definitions of services that are in a
log. -/
inductive Stands (o : Opening σ) (log : Part σ → Prop) : List (Part σ) → Continuation σ → Prop where
  -- The end of what belongs to the evaluation.
  | base {k : Continuation σ} : k = o.next → k.depth = 0 → Stands o log [] k
  | steps {around : List (Part σ)} {rest : List Activity} {frame : Frame} {next : Continuation σ} :
      Stands o log around next → frame = o.frame around →
        (∀ a ∈ rest, o.root.Lies (around.map Part.activity) a) →
          Stands o log around (.steps rest frame next)
  -- The innermost definition of a service has been evaluated here, and ends.
  | service {around : List (Part σ)} {p : Part σ} {name : String} {body : List Activity}
      {id : ServiceId} {next : Continuation σ} :
      Stands o log around next → log p → p.activity = .defineService name body →
        o.root.Lies (around.map Part.activity) p.activity → p.frame = o.frame around →
          p.next = next → id = p.service → Stands o log (p :: around) (.service id next)
  | ignore {around : List (Part σ)} {next : Continuation σ} :
      Stands o log around next → Stands o log around (.ignore next)
  | retry {around : List (Part σ)} {state : RetryState} {body : Activity} {frame : Frame}
      {next : Continuation σ} : Stands o log around next → frame = o.frame around →
        o.root.Lies (around.map Part.activity) body →
          Stands o log around (.retry state body frame next)

theorem Stands.mono {o : Opening σ} {log more : Part σ → Prop} (hmore : ∀ p, log p → more p)
    {around : List (Part σ)} {k : Continuation σ} (h : o.Stands log around k) :
    o.Stands more around k := by
  induction h with
  | base hbase hdepth => exact .base hbase hdepth
  | steps _ hframe hlies ih => exact .steps ih hframe hlies
  | service _ hp hactivity hlies hframe hnext hid ih =>
    exact .service ih (hmore _ hp) hactivity hlies hframe hnext hid
  | ignore _ ih => exact .ignore ih
  | retry _ hframe hlies ih => exact .retry ih hframe hlies

/-- The innermost definition of a service is in the log, and in its place inside of the others. -/
theorem Stands.innermost {o : Opening σ} {log : Part σ → Prop} {p : Part σ} {around : List (Part σ)}
    {k : Continuation σ} (h : o.Stands log (p :: around) k) :
    log p ∧ ∃ name body, p.activity = .defineService name body := by
  generalize hwhole : p :: around = whole at h
  induction h with
  | base _ _ => cases hwhole
  | steps _ _ _ ih => exact ih hwhole
  | service _ hp hactivity _ _ _ _ _ =>
    cases hwhole
    exact ⟨hp, _, _, hactivity⟩
  | ignore _ ih => exact ih hwhole
  | retry _ _ _ ih => exact ih hwhole

/-- What stands in an evaluation goes on to its end. -/
theorem Stands.through {o : Opening σ} {log : Part σ → Prop} {around : List (Part σ)}
    {k : Continuation σ} (h : o.Stands log around k) : Continuation.Through o.next k := by
  induction h with
  | base hbase _ =>
    subst hbase
    exact .here
  | steps _ _ _ ih => exact .steps ih
  | service _ _ _ _ _ _ _ ih => exact .service ih
  | ignore _ ih => exact .ignore ih
  | retry _ _ _ ih => exact .retry ih

end Opening

/-! ## In a store -/

/-- What the definition of a service has made is there: the service, under its name, and its scope
inside the one of the definition. -/
structure Part.Founded (s : Store) (p : Part σ) : Prop where
  service : ∃ service, s.service? p.service = some service ∧ service.scope = p.scope ∧
    ∀ name body, p.activity = .defineService name body → service.name = name
  scope : ∃ scope, s.scope? p.scope = some scope ∧ scope.owner = some p.service ∧
    scope.parent = some p.frame.scope
  below : p.frame.scope.index < p.scope.index

theorem Part.Founded.grows {s t : Store} {p : Part σ} (h : p.Founded s) (hgrows : s.Grows t) :
    p.Founded t := by
  rcases h.service with ⟨service, hservice, hscope, hname⟩
  rcases hgrows.service _ _ hservice with ⟨later, hlater, hretains⟩
  rcases h.scope with ⟨scope, hfound, howner, hparent⟩
  rcases hgrows.scope _ _ hfound with ⟨wider, hwider, hextends⟩
  refine ⟨⟨later, hlater, hretains.scope.trans hscope, ?_⟩, ⟨wider, hwider, ?_, ?_⟩, h.below⟩
  · intro name body hactivity
    rw [hretains.name]
    exact hname name body hactivity
  · rw [hextends.owner, howner]
  · rw [hextends.parent, hparent]

/-- The definition of a service makes it, under its name, with a scope. -/
theorem Part.founded_effect {p : Part σ} {name : String} {body : List Activity}
    (hactivity : p.activity = .defineService name body)
    (hframe : ∃ scope, p.world.store.scope? p.frame.scope = some scope) : p.Founded p.effect := by
  rcases hframe with ⟨scope, hframe⟩
  have hmade : p.Founded (p.world.store.newService name (some p.frame.scope)).1 := by
    refine ⟨⟨_, Array.getElem?_push_size, rfl, ?_⟩, ⟨_, Array.getElem?_push_size, rfl, rfl⟩,
      (Array.getElem?_eq_some_iff.1 hframe).1⟩
    intro other others hother
    cases hactivity.symm.trans hother
    rfl
  have heffect : p.effect = ((p.world.store.newService name (some p.frame.scope)).1).bind
      p.frame.scope name (.service p.service) := by
    rw [Part.effect, hactivity]
  rw [heffect]
  exact hmade.grows (Store.Move.bind _ _ _).grows

/-- The scope of an evaluation is there, and so is what the definitions of services have made. -/
structure Opening.Built (o : Opening σ) (s : Store) (around : List (Part σ)) : Prop where
  scope : ∃ scope, s.scope? o.scope = some scope
  founded : ∀ p ∈ around, p.Founded s

namespace Opening.Built

variable {o : Opening σ} {s t : Store} {around : List (Part σ)}

theorem grows (h : o.Built s around) (hgrows : s.Grows t) : o.Built t around where
  scope := by
    rcases h.scope with ⟨scope, hscope⟩
    rcases hgrows.scope _ _ hscope with ⟨later, hlater, -⟩
    exact ⟨later, hlater⟩
  founded := fun p hp => (h.founded p hp).grows hgrows

theorem cons {p : Part σ} (h : o.Built s around) (hp : p.Founded s) : o.Built s (p :: around) where
  scope := h.scope
  founded := by
    intro other hother
    rcases List.mem_cons.1 hother with rfl | hother
    · exact hp
    · exact h.founded other hother

theorem tail {p : Part σ} (h : o.Built s (p :: around)) : o.Built s around where
  scope := h.scope
  founded := fun other hother => h.founded other (List.mem_cons_of_mem _ hother)

/-- The scope in which the next activity is evaluated is there. -/
theorem frame (h : o.Built s around) : ∃ scope, s.scope? (o.frame around).scope = some scope := by
  cases around with
  | nil => exact h.scope
  | cons p around =>
    rcases (h.founded p List.mem_cons_self).scope with ⟨scope, hscope, -⟩
    exact ⟨scope, hscope⟩

end Opening.Built

/-! ## In its place -/

/-- A part is evaluated in its place. -/
structure Part.Placed (o : Opening σ) (log : Part σ → Prop) (around : List (Part σ))
    (p : Part σ) : Prop where
  lies : o.root.Lies (around.map Part.activity) p.activity
  frame : p.frame = o.frame around
  next : o.Stands log around p.next
  built : o.Built p.world.store around

/-- A continuation stands in its place. -/
def Opening.Stood (o : Opening σ) (log : Part σ → Prop) (s : Store) (k : Continuation σ) : Prop :=
  ∃ around, o.Stands log around k ∧ o.Built s around

theorem Opening.lasting_stood (o : Opening σ) (log : Part σ → Prop) : Lasting (o.Stood log) := by
  rintro s t k hgrows ⟨around, hstands, hbuilt⟩
  exact ⟨around, hstands, hbuilt.grows hgrows⟩

namespace World

/-- From one world on, some parts have been evaluated, and all of it stayed in its place. -/
structure Settled (o : Opening σ) (log : Part σ → Prop) (w : World σ) (ps : List (Part σ))
    (v : World σ) : Prop where
  rests : Rests (o.Stood log) w v
  placed : ∀ p ∈ ps, ∃ around, p.Placed o log around

namespace Settled

variable {o : Opening σ} {log : Part σ → Prop} {w v u : World σ} {p : Part σ}
  {ps qs : List (Part σ)} {around : List (Part σ)}

theorem single (h : p.Placed o log around) (hrests : Rests (o.Stood log) w v) :
    Settled o log w [p] v where
  rests := hrests
  placed := by
    intro other hother
    rw [List.mem_singleton.1 hother]
    exact ⟨around, h⟩

theorem cons (h : p.Placed o log around) (k : Settled o log w ps v) :
    Settled o log w (p :: ps) v where
  rests := k.rests
  placed := by
    intro other hother
    rcases List.mem_cons.1 hother with rfl | hother
    · exact ⟨around, h⟩
    · exact k.placed other hother

theorem append (h : Settled o log w ps v) (k : Settled o log v qs u) :
    Settled o log w (ps ++ qs) u where
  rests := h.rests.trans (o.lasting_stood log) k.rests
  placed := by
    intro other hother
    rcases List.mem_append.1 hother with hother | hother
    · exact h.placed other hother
    · exact k.placed other hother

theorem before (hrests : Rests (o.Stood log) w v) (h : Settled o log v ps u) :
    Settled o log w ps u where
  rests := hrests.trans (o.lasting_stood log) h.rests
  placed := h.placed

end Settled

variable {o : Opening σ} {log : Part σ → Prop} {around : List (Part σ)}

/-- One more attempt of a retry. -/
theorem attempt_placed {inUse : List Ref} {state : RetryState} {body : Activity}
    {next : Continuation σ} {w : World σ} {ps : List (Part σ)}
    (hretry : o.Stands log around (.retry state.begin body (o.frame around) next))
    (hbuilt : o.Built w.store around)
    (h : Settled o log w ps
      (evaluate inUse body (o.frame around) (.retry state.begin body (o.frame around) next) w).1) :
    Settled o log w ps (attempt inUse state body (o.frame around) next w).1 :=
  ⟨.attempt (o.lasting_stood log) ⟨around, hretry, hbuilt⟩ h.rests, h.placed⟩

-- Both proofs follow the recursion of the evaluation: an activity inside of a placed one is placed,
-- with one more definition of a service around it in the body of such a definition.
mutual

theorem evaluate_placed (inUse : List Ref) (activity : Activity) (next : Continuation σ)
    (w : World σ) (around : List (Part σ))
    (h : (⟨w, inUse, activity, o.frame around, next⟩ : Part σ).Placed o log around)
    (hlog : ∀ p ∈ parts inUse activity (o.frame around) next w, log p) :
    Settled o log w (parts inUse activity (o.frame around) next w)
      (evaluate inUse activity (o.frame around) next w).1 := by
  have hstood : o.Stood log w.store next := ⟨around, h.next, h.built⟩
  cases activity with
  | defineService name body =>
    let p : Part σ := ⟨w, inUse, .defineService name body, o.frame around, next⟩
    have hfounded : p.Founded p.effect := Part.founded_effect rfl h.built.frame
    have hgrows : w.store.Grows p.effect :=
      (Store.Move.service name (some (o.frame around).scope)).grows.trans
        (Store.Move.bind _ _ _).grows
    have hframe : (o.frame around).inside p.service p.scope = o.frame (p :: around) := by
      rw [Frame.inside, Opening.frame_caller]
      rfl
    have hlog : ∀ q ∈ p :: parts.ofSteps inUse body ((o.frame around).inside p.service p.scope)
        .unit (.service p.service next) { w with store := p.effect }, log q := hlog
    rw [hframe] at hlog
    have hbody := evaluateSteps_placed inUse body .unit (.service p.service next)
      { w with store := p.effect } (p :: around) (fun a ha => .service h.lies ha)
      (.service h.next (hlog p List.mem_cons_self) rfl h.lies rfl rfl rfl)
      ((h.built.grows hgrows).cons hfounded) fun q hq => hlog q (List.mem_cons_of_mem _ hq)
    rw [← hframe] at hbody
    rw [defineService_world]
    exact .cons h (.before (.define hgrows) hbody)
  | defineOperation name body => exact .single h (.defineOperation w name body _)
  | defineClient name period body =>
    exact .single h (.defineClient (o.lasting_stood log) name period body h.built.frame)
  | trigger target operation =>
    exact .single h (.trigger (o.lasting_stood log) w inUse target operation _ next)
  | query target operation timeout =>
    exact .single h (.query (o.lasting_stood log) inUse target operation timeout _ hstood)
  | sequence steps =>
    rw [parts] at hlog ⊢
    exact .cons h (evaluateSteps_placed inUse steps .unit next w around
      (fun a ha => .sequence h.lies ha) h.next h.built
      fun p hp => hlog p (List.mem_cons_of_mem _ hp))
  | think duration =>
    refine .single h (.suspend ⟨?_, by simp⟩)
    rintro k ⟨⟩
    exact hstood
  | retry body limit delay =>
    rw [parts] at hlog ⊢
    rw [evaluate]
    refine .cons h ?_
    cases hcheck : Time.checkDelay delay.base with
    | error e => exact ⟨.refl _ w, by simp⟩
    | ok _ =>
      cases hstart : RetryState.start limit delay with
      | error e => exact ⟨.refl _ w, by simp⟩
      | ok state =>
        rw [hcheck, hstart] at hlog
        have hretry : o.Stands log around (.retry state.begin body (o.frame around) next) :=
          .retry h.next rfl (.retry h.lies)
        exact attempt_placed hretry h.built (evaluate_placed inUse body _ w around
          ⟨.retry h.lies, rfl, hretry, h.built⟩ fun p hp => hlog p (List.mem_cons_of_mem _ hp))
  | ignoreError body =>
    rw [ignoreError_world]
    exact .cons h (evaluate_placed inUse body (.ignore next) w around
      ⟨.ignoreError h.lies, rfl, .ignore h.next, h.built⟩
      fun p hp => hlog p (List.mem_cons_of_mem _ hp))
  | fail => exact .single h (.refl _ w)

theorem evaluateSteps_placed (inUse : List Ref) (steps : List Activity) (last : Value)
    (next : Continuation σ) (w : World σ) (around : List (Part σ))
    (hlies : ∀ a ∈ steps, o.root.Lies (around.map Part.activity) a)
    (hnext : o.Stands log around next) (hbuilt : o.Built w.store around)
    (hlog : ∀ p ∈ parts.ofSteps inUse steps (o.frame around) last next w, log p) :
    Settled o log w (parts.ofSteps inUse steps (o.frame around) last next w)
      (evaluate.evaluateSteps inUse steps (o.frame around) last next w).1 := by
  cases steps with
  | nil => exact ⟨.refl _ w, by simp [parts.ofSteps]⟩
  | cons step rest =>
    rw [parts.ofSteps] at hlog ⊢
    rw [evaluate.evaluateSteps]
    have hrest : ∀ a ∈ rest, o.root.Lies (around.map Part.activity) a :=
      fun a ha => hlies a (List.mem_cons_of_mem _ ha)
    have hstep := evaluate_placed inUse step (.steps rest (o.frame around) next) w around
      ⟨hlies step List.mem_cons_self, rfl, .steps hnext rfl hrest, hbuilt⟩
      fun p hp => hlog p (List.mem_append_left _ hp)
    split
    · rename_i v value held hv
      rw [hv] at hstep hlog
      rw [hv]
      exact hstep.append (evaluateSteps_placed inUse rest value next v around hrest hnext
        (hbuilt.grows hstep.rests.grows) fun p hp => hlog p (List.mem_append_right _ hp))
    · rename_i hother
      rw [List.append_nil]
      split
      · rename_i v value held hv
        exact absurd hv (hother v value held)
      · rename_i hv
        rw [hv] at hstep
        exact hstep
      · exact hstep

end

end World
end Callflow

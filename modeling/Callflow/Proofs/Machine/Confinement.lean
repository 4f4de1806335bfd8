import Callflow.Proofs.Machine.Thread

/-!
# Serving writes in its own scope

The body of an operation is evaluated in a fresh scope, which is made for this one invocation.
However often it is suspended, in all transitions of its thread it changes the bindings of this
scope and of the scopes of services defined in it, and nothing else: no other scope, no service that
was there before, and no look-up from elsewhere. This is `Life.serves_inside`.
-/

namespace Callflow

open Store (Confines)

variable {σ : Type}

/-! ## Scopes of services -/

theorem World.Path.sited {w v : World σ} {deeds : List (World.Deed σ)} (h : World.Path w deeds v)
    (hw : w.store.Sited) : v.store.Sited := by
  induction h with
  | refl => exact hw
  | move _ hm ih =>
    rcases hm.store with hsame | hmove
    · rw [hsame]
      exact ih
    · exact hmove.sited ih

namespace Machine

/-- In a simulation, the scope of every service is there. -/
theorem Life.sited {config : SimulationConfig} {memory : σ} {past : List (Machine σ)}
    {m : Machine σ} (h : Life (idle (World.start config memory)) past m) :
    m.world.store.Sited := by
  rcases h.deeds (sound_idle config memory).waiting with ⟨deeds, hdeeds⟩
  refine hdeeds.path.sited ?_
  intro id service hservice
  have hnone : (idle (World.start config memory)).world.store.service? id = none :=
    Array.getElem?_eq_none (Nat.zero_le _)
  rw [hnone] at hservice
  cases hservice

/-! ## Invocations -/

/-- A transition begins with an invocation. -/
structure Invokes (b : Machine σ) (v : Invocation σ) : Prop where
  step : b.step = some v.result
  parts : b.parts = v.parts
  store : v.world.store = b.world.store
  sound : b.world.agenda.Sound → v.world.agenda.Sound
  parked : ∀ u, b.world.parked? u = v.world.parked? u
  depth : v.next.depth = 0
  service : ∃ id service, b.world.store.service? id = some service ∧ service.scope = v.scope

theorem service_of_processed {w : World σ} {stack : List (Activation σ)} {request : RequestId}
    {target : Target} {v : Invocation σ} (h : processed? w stack request target = some v) :
    ∃ id service, w.store.service? id = some service ∧ service.scope = v.scope := by
  cases target with
  | endpoint id => cases h
  | service id =>
    simp only [processed?] at h
    split at h
    · rename_i service r hservice hrequest
      rcases Option.map_eq_some_iff.1 h with ⟨op, hop, rfl⟩
      exact ⟨id, service, hservice, rfl⟩
    · cases h

/-- What a target processes begins with the invocation of the operation. -/
theorem Invokes.of_processed {b : Machine σ} {w : World σ} {stack : List (Activation σ)}
    {request : RequestId} {target : Target} {v : Invocation σ}
    (h : processed? w stack request target = some v)
    (hstep : b.step = some (process w stack request target))
    (hparts : b.parts = processParts w stack request target) (hstore : w.store = b.world.store)
    (hsound : b.world.agenda.Sound → w.agenda.Sound)
    (hparked : ∀ u, b.world.parked? u = w.parked? u) : Invokes b v := by
  rcases process_of_processed h with ⟨hresult, rfl, hnext⟩
  refine ⟨?_, ?_, hstore, hsound, hparked, ?_, ?_⟩
  · rw [hstep, hresult]
  · rw [hparts, processParts_eq, h]
    rfl
  · rw [hnext]
    rfl
  · rw [← hstore]
    exact service_of_processed h

/-- How an invocation comes about: the host has an operation executed, or a target process a request,
or an event delivers one. -/
theorem invokes?_cases {m : Machine σ} {v : Invocation σ} (h : m.invokes? = some v) :
    (∃ id op resume next service, m.focus = .code (.execute id op resume next) ∧
      m.world.store.service? id = some service ∧ v = ⟨m.world,
        .hold [.service id] :: .await next :: m.stack, service.scope, op, .host resume⟩) ∨
    (∃ request target next, m.focus = .code (.process request target next) ∧
      processed? m.world (.await next :: m.stack) request target = some v) ∨
    ∃ t request target, m.turn? = some t ∧ t.event.work = .deliver request target ∧
      processed? t.world t.stack request target = some v := by
  unfold invokes? at h
  split at h
  · rename_i id op resume next hfocus
    rcases Option.map_eq_some_iff.1 h with ⟨service, hservice, rfl⟩
    exact Or.inl ⟨id, op, resume, next, service, hfocus, hservice, rfl⟩
  · rename_i request target next hfocus
    exact Or.inr (Or.inl ⟨request, target, next, hfocus, h⟩)
  · rcases Option.bind_eq_some_iff.1 h with ⟨t, hturn, hprocessed⟩
    split at hprocessed
    · rename_i request target hwork
      exact Or.inr (Or.inr ⟨t, request, target, hturn, hwork, hprocessed⟩)
    · cases hprocessed

theorem invokes_of_invokes? {b : Machine σ} {v : Invocation σ} (h : b.invokes? = some v) :
    Invokes b v := by
  rcases invokes?_cases h with
    ⟨id, op, resume, next, service, hfocus, hservice, rfl⟩ | ⟨request, target, next, hfocus, hv⟩ |
    ⟨t, request, target, hturn, hwork, hv⟩
  · rcases b with ⟨w, stack, focus⟩
    cases hfocus
    dsimp only at hservice
    refine ⟨?_, ?_, rfl, fun hb => hb, fun _ => rfl, rfl, id, service, hservice, rfl⟩
    · simp only [Machine.step, Machine.execScript, hservice]
      rfl
    · simp only [Machine.parts, hservice]
      rfl
  · rcases b with ⟨w, stack, focus⟩
    cases hfocus
    exact .of_processed hv rfl rfl rfl (fun hb => hb) fun _ => rfl
  · rcases turn?_spec hturn with ⟨htaking, hstep⟩
    have hall : b.parts = t.parts := by
      simp only [Machine.parts, htaking.focus, hturn, Option.map_some, Option.getD_some]
    refine .of_processed hv ?_ ?_ htaking.store ?_ htaking.parked?
    · rw [hstep, hwork]
      rfl
    · rw [hall, Turn.parts, hwork]
    · intro hb
      rcases htaking.take with ⟨horizon, agenda, htake, hworld⟩
      rw [hworld]
      exact hb.take? htake

/-- Where the evaluation goes on with which an invocation begins. -/
theorem Invokes.lands {b : Machine σ} {v : Invocation σ} (h : Invokes b v)
    (hb : b.world.agenda.Sound) :
    (∃ spot, landed b v.result = some spot) ∨
      (landed b v.result = none ∧ v.result.focus.Stops) := by
  have hparked := World.evaluate_parks (inUse (.hold [.scope v.fresh] :: v.stack)) v.op.body
    (.plain v.fresh (.operation v.op.owner v.op.name)) v.next v.entered
  have hsound : v.entered.agenda.Sound := h.sound hb
  rcases landed_of_proceed (c := v.result) rfl hparked hsound (h.parked _) .here with
    ⟨spot, -, hspot, -⟩ | hstops
  · exact Or.inl ⟨spot, hspot⟩
  · exact Or.inr hstops

end Machine

namespace Invocation

/-- The parts that are evaluated when the invocation begins, or later. -/
def Since (v : Invocation σ) (p : Part σ) : Prop :=
  v.world.store.services.size ≤ p.service.index

/-- The invocation is where its thread says. -/
inductive Follows (v : Invocation σ) (past : List (Machine σ)) (n : Machine σ) :
    Thread σ → Prop where
  | entering : past = [] → n.invokes? = some v → Follows v past n .entering
  -- What goes on there is what stands in its place in the evaluation of the body.
  | within {spot : Spot σ} : n.Bears (Machine.Seats (· = v.opening) v.Since) spot →
      Follows v past n (.within spot)
  -- The outcome of the body has been handed to whoever has waited for it.
  | returned {before after : List (Machine σ)} {x : Machine σ} {outcome : Outcome} :
      past = before ++ x :: after → Machine.thread before x = .within .focus →
      x.focus = .resume v.next outcome → Follows v past n .returned
  -- The evaluation of the body has stopped in a transition of its own.
  | stopped {before after : List (Machine σ)} {x y : Machine σ} :
      past ++ [n] = before ++ x :: y :: after → (Machine.thread before x).acts x = true →
      y.focus.Stops → Follows v past n .stopped

/-- From one store to another, only what belongs to the invocation has changed. -/
structure Confined (v : Invocation σ) (others : List (Machine σ)) (s t : Store) : Prop where
  -- The bindings of its scope, and of scopes nested in it; these are further inside.
  bindings : ∀ id, t.scope? id = s.scope? id ∨ t.Nested v.fresh id ∧ v.fresh ∈ id :: t.around id
  -- Neither the scope of the service nor one around it,
  surroundings : ∀ id ∈ v.scope :: s.around v.scope, t.scope? id = s.scope? id
  -- nor the scope of another invocation,
  invocations : ∀ x ∈ others, ∀ other, x.invokes? = some other →
    t.scope? other.fresh = s.scope? other.fresh
  -- nor a service that was there before, with its operations,
  services : ∀ id service, v.world.store.service? id = some service →
    t.service? id = s.service? id
  -- nor what is found from elsewhere, whatever is held.
  lookUps : ∀ held id symbol, v.fresh ∉ id :: t.around id →
    t.lookUp? (t.alive held) id symbol = s.lookUp? (s.alive held) id symbol

end Invocation

namespace Machine

variable {v : Invocation σ} {b c n n' : Machine σ}

/-- An invocation begins inside of its scope. -/
theorem Invokes.advances (h : Invokes b v) (hb : b.world.agenda.Sound)
    (hparts : ∀ p ∈ b.parts, v.Since p) :
    Advances v.opening v.Since v.world.store.services.size b v.result := by
  rw [h.parts] at hparts
  have hstays : Stays (· = v.opening) v.Since v.world v.parts v.result :=
    .invoke rfl h.depth hparts
  refine ⟨?_, fun spot hspot => hstays.bears (h.sound hb) (h.parked _) hspot⟩
  have hchain : Chain v.entered.store v.parts v.result.world.store := by
    have hworld : v.result.world = (World.evaluate (inUse (.hold [.scope v.fresh] :: v.stack))
        v.op.body (.plain v.fresh (.operation v.op.owner v.op.name)) v.next v.entered).1 :=
      proceed_world ..
    rw [hworld]
    exact World.evaluate_chain ..
  have hentered : Confines v.fresh v.world.store.services.size v.world.store v.entered.store :=
    .newScope v.world.store (some v.scope) none
  rw [← h.store]
  refine hentered.trans (hchain.confines (o := v.opening) ?_ (fun _ hq => hq)
    hentered.grows.services_le)
  intro p hp
  rcases hstays.placed p hp with ⟨_, around, rfl, hplaced⟩
  exact ⟨around, hplaced⟩

/-- What is evaluated in a transition is evaluated after the definitions that there were before. -/
theorem Next.parts_since (hn : Next n n') (hgrows : v.world.store.Grows n.world.store) :
    ∀ p ∈ n.parts, v.Since p := by
  intro p hp
  cases hn with
  | call script hnone =>
    rw [parts_of_step_none hnone] at hp
    cases hp
  | step hs =>
    rcases step_parts hs hp with ⟨w, ⟨deeds, hpath⟩, -, -, hcomes⟩
    rcases hcomes.quiet with ⟨more, hmore, -⟩
    exact (hgrows.trans (hpath.grows.trans hmore.grows)).services_le

end Machine

namespace Invocation.Follows

open Machine

variable {v : Invocation σ} {n n' : Machine σ} {past : List (Machine σ)} {thread : Thread σ}

/-- In all transitions of its thread, an invocation goes on inside of its scope. -/
theorem advances (h : v.Follows past n thread) (hn : Next n n') (hsound : n.world.Sound)
    (hdistinct : n.world.agenda.Distinct) (hgrows : v.world.store.Grows n.world.store)
    (hacts : thread.acts n = true) :
    Advances v.opening v.Since v.world.store.services.size n n' := by
  have hparts := hn.parts_since hgrows
  cases h with
  | entering _ hinvokes =>
    have hbegins := invokes_of_invokes? hinvokes
    rw [hn.eq_of_step hbegins.step]
    exact hbegins.advances hsound.agenda hparts
  | within hbears =>
    exact hbears.advances hn hsound hdistinct hacts hparts (fun _ hq => hq) hgrows.services_le
  | returned _ _ _ => cases hacts
  | stopped _ _ _ => cases hacts

/-- Its thread tells where it is afterwards. -/
theorem next (h : v.Follows past n (Machine.thread past n)) (hn : Next n n')
    (hsound : n.world.Sound) (hdistinct : n.world.agenda.Distinct)
    (hgrows : v.world.store.Grows n.world.store) (hdepth : v.next.depth = 0) :
    v.Follows (past ++ [n]) n' (Machine.thread (past ++ [n]) n') := by
  have hadvances := h.advances hn hsound hdistinct hgrows
  have hstopped (hacts : (Machine.thread past n).acts n = true) (hstops : n'.focus.Stops) :
      v.Follows (past ++ [n]) n' .stopped :=
    .stopped (List.append_assoc past [n] [n']) hacts hstops
  rw [thread_concat]
  generalize hthread : Machine.thread past n = thread at h hadvances hstopped
  cases h with
  | entering _ hinvokes =>
    have hbegins := invokes_of_invokes? hinvokes
    cases hn.eq_of_step hbegins.step
    simp only [Thread.follow]
    rcases hbegins.lands hsound.agenda with ⟨spot, hspot⟩ | ⟨hnone, hstops⟩
    · rw [hspot]
      exact .within ((hadvances rfl).lands spot hspot)
    · rw [hnone]
      exact hstopped rfl hstops
  | @within spot hbears =>
    simp only [Thread.follow]
    cases hreturns : Thread.returns n spot with
    | true =>
      rw [if_pos rfl]
      rcases hbears.holds hdepth with ⟨k, hholds, hthrough⟩
      cases hholds with
      | @focus _ outcome hfocus =>
        simp only [Thread.returns, hfocus, decide_eq_true_eq] at hreturns
        rw [hthrough.eq_of_depth (hreturns.trans hdepth.symm)] at hfocus
        exact .returned rfl hthread hfocus
      | kept hkeeps => cases hkeeps <;> cases hreturns
    | false =>
      rw [if_neg (by simp)]
      rcases hbears.follow hn hsound hdistinct hdepth hreturns fun hacts =>
          (hadvances hacts).lands with
        ⟨spot', hspot, hlater⟩ | ⟨hnone, hstops⟩
      · rw [hspot]
        exact .within hlater
      · rw [hnone]
        exact hstopped (Thread.acts_of_follow hreturns hnone) hstops
  | @returned before after x outcome hpast hwithin hfocus =>
    have hlater : past ++ [n] = before ++ x :: (after ++ [n]) := by
      rw [hpast, List.append_assoc, List.cons_append]
    exact .returned hlater hwithin hfocus
  | @stopped before after x y hpast hacts hstops =>
    have hlater : past ++ [n] ++ [n'] = before ++ x :: y :: (after ++ [n']) := by
      rw [hpast, List.append_assoc, List.cons_append, List.cons_append]
    exact .stopped hlater hacts hstops

end Invocation.Follows

namespace Machine

/-! ## In a life -/

/-- The scope of an invocation is made for it: it was not there before, and afterwards it is inside
of the scope of the service, with no service of its own. -/
theorem Life.fresh_made (hinvokes : b.invokes? = some v) (hstep : Next b c)
    {more : List (Machine σ)} (hlife : Life c more n) :
    b.world.store.scope? v.fresh = none ∧ ∃ scope, n.world.store.scope? v.fresh = some scope ∧
      scope.parent = some v.scope ∧ scope.owner = none := by
  have hbegins := invokes_of_invokes? hinvokes
  refine ⟨?_, ?_⟩
  · rw [← hbegins.store]
    exact Array.getElem?_eq_none le_rfl
  · cases hstep.eq_of_step hbegins.step
    have hcourse := World.evaluate_course (inUse (.hold [.scope v.fresh] :: v.stack)) v.op.body
      (.plain v.fresh (.operation v.op.owner v.op.name)) v.next v.entered
    rcases hcourse.hands.deeds with ⟨deeds, hpath, -⟩
    have hworld : v.result.world = (World.evaluate (inUse (.hold [.scope v.fresh] :: v.stack))
        v.op.body (.plain v.fresh (.operation v.op.owner v.op.name)) v.next v.entered).1 :=
      proceed_world ..
    have hgrows : v.entered.store.Grows n.world.store := by
      refine hpath.grows.trans ?_
      rw [← hworld]
      exact hlife.grows
    have hmade : v.entered.store.scope? v.fresh = some ⟨some v.scope, none, .empty⟩ :=
      Array.getElem?_push_size
    rcases hgrows.scope _ _ hmade with ⟨scope, hscope, hextends⟩
    exact ⟨scope, hscope, hextends.parent, hextends.owner⟩

/-- No two invocations have the same scope. -/
theorem Life.fresh_lt {other : Invocation σ} (hinvokes : b.invokes? = some v) (hstep : Next b c)
    {more : List (Machine σ)} (hlife : Life c more n) (hother : n.invokes? = some other) :
    v.fresh.index < other.fresh.index := by
  rcases (Life.fresh_made hinvokes hstep hlife).2 with ⟨scope, hscope, -⟩
  have hlt := (Array.getElem?_eq_some_iff.1 hscope).1
  have hthen : other.fresh.index = n.world.store.scopes.size := by
    rw [Invocation.fresh, (invokes_of_invokes? hother).store]
  rw [hthen]
  exact hlt

/-- The scopes of all other invocations are there, and belong to no service. -/
theorem Life.others_made {a : Machine σ} {early past : List (Machine σ)} (h : Life a early b)
    (hinvokes : b.invokes? = some v) (hlife : Life b past n) :
    ∀ x ∈ early ++ past.tail, ∀ other, x.invokes? = some other → other.fresh ≠ v.fresh ∧
      ∃ scope, n.world.store.scope? other.fresh = some scope ∧ scope.owner = none := by
  have hne {u u' : Invocation σ} (hlt : u.fresh.index < u'.fresh.index) : u.fresh ≠ u'.fresh :=
    fun hsame => hlt.ne (congrArg ScopeId.index hsame)
  intro x hx other hother
  rcases List.mem_append.1 hx with hx | hx
  · rcases List.append_of_mem hx with ⟨before, after, rfl⟩
    rcases h.cut with ⟨-, y, hy, hrest⟩
    rcases (Life.fresh_made hother hy (hrest.trans hlife)).2 with ⟨scope, hscope, -, howner⟩
    exact ⟨hne (Life.fresh_lt hother hy hrest hinvokes), scope, hscope, howner⟩
  · cases past with
    | nil => cases hx
    | cons first rest =>
      rcases List.append_of_mem hx with ⟨before, after, hrest⟩
      rw [List.tail_cons] at hrest
      rcases hlife.first with ⟨-, z, hz, hlater⟩
      rw [hrest] at hlater
      rcases hlater.cut with ⟨hmiddle, y, hy, hend⟩
      rcases (Life.fresh_made hother hy hend).2 with ⟨scope, hscope, -, howner⟩
      exact ⟨(hne (Life.fresh_lt hinvokes hz hmiddle hother)).symm, scope, hscope, howner⟩

/-- Whatever the body of an operation is, and however often it is suspended: from any moment at
which an operation is invoked in a simulation, and for the whole rest of its life,

* the thread of the invocation tells where its evaluation is: what goes on there stands in its place
  in the body, until its outcome is handed on or it stops for good;
* the scope of the invocation was not there before, is inside of the scope of the service, and
  differs from the scope of any other invocation;
* no transition of the thread changes anything but what belongs to the invocation. -/
theorem Life.serves_inside {config : SimulationConfig} {memory : σ} {early past : List (Machine σ)}
    (h : Life (idle (World.start config memory)) early b) (hinvokes : b.invokes? = some v)
    (hlife : Life b past n) (hn : Next n n') :
    v.Follows past n (thread past n) ∧
    (b.world.store.scope? v.fresh = none ∧ ∃ scope, n'.world.store.scope? v.fresh = some scope ∧
      scope.parent = some v.scope ∧ scope.owner = none) ∧
    (∀ x ∈ early ++ past.tail, ∀ other, x.invokes? = some other → other.fresh ≠ v.fresh) ∧
    ((thread past n).acts n = true →
      v.Confined (early ++ past.tail) n.world.store n'.world.store) := by
  have hbegins := invokes_of_invokes? hinvokes
  have hthere {past : List (Machine σ)} {m : Machine σ} (hlife : Life b past m) :
      v.world.store.Grows m.world.store := by
    rw [hbegins.store]
    exact hlife.grows
  have hsound {past : List (Machine σ)} {m : Machine σ} (hlife : Life b past m) : m.world.Sound :=
    (h.trans hlife).sound (sound_idle config memory)
  have hfollows : v.Follows past n (thread past n) := by
    clear hn
    induction hlife with
    | refl => exact .entering rfl hinvokes
    | @next past m n hlife hn ih =>
      exact ih.next hn (hsound hlife) (h.trans hlife).distinct (hthere hlife) hbegins.depth
  have hothers := h.others_made hinvokes hlife
  have hfresh : b.world.store.scope? v.fresh = none ∧
      ∃ scope, n'.world.store.scope? v.fresh = some scope ∧ scope.parent = some v.scope ∧
        scope.owner = none := by
    have hwhole := hlife.next hn
    cases hpast : past ++ [n] with
    | nil => simp at hpast
    | cons first rest =>
      rw [hpast] at hwhole
      rcases hwhole.first with ⟨-, y, hy, hrest⟩
      exact Life.fresh_made hinvokes hy hrest
  refine ⟨hfollows, hfresh, fun x hx other hother => (hothers x hx other hother).1, ?_⟩
  intro hacts
  have hconfines := (hfollows.advances hn (hsound hlife) (h.trans hlife).distinct (hthere hlife)
    hacts).confines
  have hscope : v.scope.index < v.fresh.index := by
    rcases hbegins.service with ⟨id, service, hservice, hsame⟩
    rw [← hsame, Invocation.fresh, hbegins.store]
    exact h.sited id service hservice
  refine ⟨?_, ?_, ?_, ?_, ?_⟩
  · intro id
    exact (hconfines.scopes id).imp_right fun hnested => ⟨hnested, hnested.mem⟩
  · intro id hid
    refine hconfines.before (lt_of_le_of_lt ?_ hscope)
    rcases List.mem_cons.1 hid with rfl | hid
    · exact le_rfl
    · exact (Store.lt_of_mem_around hid).le
  · intro x hx other hother
    rcases hothers x hx other hother with ⟨hne, scope, hscope, howner⟩
    rcases hconfines.grows.scope _ _ hscope with ⟨later, hlater, hextends⟩
    exact hconfines.unowned hne hlater (hextends.owner.trans howner)
  · intro id service hservice
    exact hconfines.services id (Array.getElem?_eq_some_iff.1 hservice).1
  · intro held id symbol hid
    exact hconfines.lookUp? hid held symbol

/-- The body of an operation that defines services, waits for one of them, and tries again. -/
def workshop : Activity :=
  .sequence
    [.defineService "helper" [.think 1.0, .defineOperation "assist" (.defineService "deep" [])],
      .query "helper" "assist" none,
      .retry (.sequence [.defineService "again" [], .think 1.0, .fail]) 2 (.constant 1.0)]

/-- Host code that defines it, and sends a request for it. -/
def commission : Script Unit :=
  .evaluate (.sequence [.defineService "shop" [.defineOperation "work" workshop],
    .trigger "shop" "work"]) .host (fun _ => .done) fun _ => .run 9.0 fun _ => .done

/-- The simulation after some transitions; the seventh one invokes the operation. -/
def working (fuel : Nat) : Machine Unit :=
  run fuel ⟨World.start ⟨true, none⟩ (), [], .code commission⟩

theorem workshop_serves_inside :
    ∃ v : Invocation Unit, (working 6).invokes? = some v ∧ v.op.name = "work" ∧
      (run 20 (working 6)).world.store.local? v.fresh "again" = some (.service ⟨3⟩) ∧
      (run 21 (working 6)).world.store.local? v.fresh "again" = some (.service ⟨4⟩) ∧
      (run 21 (working 6)).world.store.scope? ⟨4⟩ = (run 20 (working 6)).world.store.scope? ⟨4⟩ ∧
      ∀ held symbol,
        (run 21 (working 6)).world.store.lookUp? ((run 21 (working 6)).world.store.alive held)
            v.scope symbol =
          (run 20 (working 6)).world.store.lookUp? ((run 20 (working 6)).world.store.alive held)
            v.scope symbol := by
  have hlife : Life (idle (World.start ⟨true, none⟩ ())) _ (working 6) :=
    (Life.refl.next (.call commission rfl)).trans (life_run 6 _)
  obtain ⟨v, hinvokes, hname, hfresh, hscope⟩ : ∃ v, (working 6).invokes? = some v ∧
      v.op.name = "work" ∧ v.fresh = ⟨2⟩ ∧ v.scope = ⟨1⟩ :=
    ⟨_, by with_unfolding_all rfl, by with_unfolding_all rfl, by with_unfolding_all rfl,
      by with_unfolding_all rfl⟩
  have hnext : Next (run 20 (working 6)) (run 21 (working 6)) := .step (by with_unfolding_all rfl)
  have hacts : (thread (trail 20 (working 6)) (run 20 (working 6))).acts (run 20 (working 6)) =
      true := by with_unfolding_all rfl
  have hconfined :=
    (hlife.serves_inside hinvokes (life_run 20 (working 6)) hnext).2.2.2 hacts
  refine ⟨v, hinvokes, hname, ?_, ?_, ?_, ?_⟩
  · rw [hfresh]
    with_unfolding_all rfl
  · rw [hfresh]
    with_unfolding_all rfl
  · -- The scope of the invocation of the other operation.
    obtain ⟨other, hother, hsame⟩ : ∃ other, (run 9 (working 6)).invokes? = some other ∧
        other.fresh = ⟨4⟩ := ⟨_, by with_unfolding_all rfl, by with_unfolding_all rfl⟩
    rw [← hsame]
    refine hconfined.invocations (run 9 (working 6)) ?_ other hother
    exact List.mem_append_right _ (List.mem_of_getElem? (i := 8) (by with_unfolding_all rfl))
  · intro held symbol
    refine hconfined.lookUps held v.scope symbol ?_
    rw [hfresh, hscope]
    rintro (_ | ⟨_, haround⟩)
    exact absurd (Store.lt_of_mem_around haround) (by decide)

end Machine
end Callflow

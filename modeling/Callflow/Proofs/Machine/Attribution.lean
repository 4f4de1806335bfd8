import Callflow.Proofs.Machine.Ledger
import Callflow.Proofs.Machine.Underway
import Callflow.Proofs.World.Issuing

/-!
# As whom requests are issued

The journal tells of the requests that have been issued just what the transitions of a life have
issued (`Life.issues`): the host's own entries, and those of the triggers and the queries among the
parts. Each part is one of an evaluation under way, in its place there, so its frame is the one that
this evaluation has begun with, inside of some services. Who that is depends on how the evaluation
has begun (`Opens`), and on nothing that has happened since (`Life.requests_attributed`).
-/

namespace Callflow

variable {σ : Type}

/-! ## Entries about requests that were issued -/

namespace Journal

variable {j : Journal}

/-- The entries about requests that were issued, in their order. -/
def issues (j : Journal) : List JournalEntry := j.entries.toList.filter fun e => e.issued?.isSome

theorem issues_foldl (entries : List JournalEntry) (h : j.enabled = true) :
    (entries.foldl Journal.record j).issues =
      j.issues ++ entries.filter fun e => e.issued?.isSome := by
  rw [issues, entries_foldl entries h, List.filter_append]
  rfl

end Journal

/-- Plain deeds are not about requests that are issued. -/
theorem World.Deed.issued?_of_plain {d : World.Deed σ} {e : JournalEntry} (h : d.isPlain = true)
    (he : d.entry? = some e) : e.issued? = none := by
  cases d with
  | agenda deed =>
    cases deed with
    | taken event =>
      cases he
      rfl
    | scheduled _ _ _ => cases he
    | advanced _ => cases he
  | issued _ _ _ _ _ => cases h
  | settled _ _ _ =>
    cases he
    rfl
  | stale _ _ _ =>
    cases he
    rfl
  | recorded _ => cases h

/-- What a part writes is about a request that is issued. -/
theorem Part.issued?_of_issue? {p : Part σ} {e : JournalEntry} (h : p.issue? = some e) :
    e.issued?.isSome = true := by
  rcases Part.issue?_eq_some h with ⟨_, _, _, -, -, rfl⟩
  rfl

/-- A part of an evaluation issues a request, as the one who the evaluation has begun as: it is a
trigger or a query in its place in the text of the evaluation, inside of some definitions of
services. -/
structure Opening.Issues (o : Opening σ) (log : Part σ → Prop) (p : Part σ) (e : JournalEntry) :
    Prop where
  call : ∃ symbol operation target, (p.activity = .trigger symbol operation ∨
      ∃ timeout, p.activity = .query symbol operation timeout) ∧
    p.world.resolve p.inUse p.frame p.next symbol = .ok target ∧
    e = .issued p.world.now ⟨p.world.requests.size⟩ o.caller (p.world.store.targetName target)
      operation
  placed : ∃ around, p.Placed o log around

theorem Part.Placed.issues {o : Opening σ} {log : Part σ → Prop} {around : List (Part σ)}
    {p : Part σ} {e : JournalEntry} (h : p.Placed o log around) (hissue : p.issue? = some e) :
    o.Issues log p e := by
  have hcaller : p.frame.caller = o.caller := by
    rw [h.frame, Opening.frame_caller]
  rcases Part.issue?_eq_some hissue with ⟨symbol, operation, target, hactivity, hresolve, rfl⟩
  exact ⟨⟨symbol, operation, target, hactivity, hresolve, by rw [hcaller]⟩, around, h⟩

namespace Machine

open World (Deed)

/-! ## The calls among the parts -/

theorem executeCalls_eq_parts (w : World σ) (stack : List (Activation σ)) (scope : ScopeId)
    (op : Operation) (next : Continuation σ) :
    executeCalls w stack scope op next =
      (executeParts w stack scope op next).filterMap Part.call? :=
  World.calls_eq_parts ..

theorem processCalls_eq_parts (w : World σ) (stack : List (Activation σ)) (request : RequestId)
    (target : Target) :
    processCalls w stack request target =
      (processParts w stack request target).filterMap Part.call? := by
  cases target with
  | endpoint id => rfl
  | service id =>
    simp only [processCalls, processParts]
    cases w.store.service? id with
    | none => rfl
    | some service =>
      cases w.request? request with
      | none => rfl
      | some r =>
        dsimp only
        cases service.operations.find? r.operation with
        | none => rfl
        | some op => exact executeCalls_eq_parts ..

theorem fireCalls_eq_parts (w : World σ) (stack : List (Activation σ)) (id : ClientId)
    (scope : ScopeId) :
    fireCalls w stack id scope = (fireParts w stack id scope).filterMap Part.call? := by
  unfold fireCalls fireParts
  cases w.store.client? id with
  | none => rfl
  | some client =>
    dsimp only
    generalize ({ w with store := w.store.modifyClient id fun c =>
      { c with firings := c.firings + 1 } } : World σ) = counted
    cases counted.schedule client.period .clientFiring (.fire id scope) with
    | error cause => rfl
    | ok scheduled => exact World.calls_eq_parts ..

theorem Turn.calls_eq_parts (t : Turn σ) : t.calls = t.parts.filterMap Part.call? := by
  unfold Turn.calls Turn.parts
  cases t.event.work with
  | deliver request target => exact processCalls_eq_parts ..
  | attempt state body frame next => exact World.calls_eq_parts ..
  | fire client scope => exact fireCalls_eq_parts ..
  | _ => rfl

variable {m b c : Machine σ} {o : Opening σ} {past : List (Machine σ)}

/-- The calls of a transition are the triggers and the queries among its parts. -/
theorem calls_eq_parts (m : Machine σ) : m.calls = m.parts.filterMap Part.call? := by
  have hturn : (m.turn?.map Turn.calls).getD [] =
      ((m.turn?.map Turn.parts).getD []).filterMap Part.call? := by
    cases m.turn? with
    | none => rfl
    | some t => exact t.calls_eq_parts
  rcases m with ⟨w, stack, focus⟩
  cases focus with
  | code script =>
    cases script with
    | evaluate activity caller resume next => exact World.calls_eq_parts ..
    | execute id op resume next =>
      simp only [calls, parts]
      cases w.store.service? id with
      | none => rfl
      | some service => exact executeCalls_eq_parts ..
    | process request target next => exact processCalls_eq_parts ..
    | _ => exact hturn
  | resume next outcome =>
    cases next with
    | steps rest frame next =>
      cases outcome with
      | success value => exact World.calls_eq_parts_steps ..
      | failure cause => exact hturn
    | _ => exact hturn
  | back result => exact hturn
  | crash cause => exact hturn

/-! ## What a transition issues -/

/-- The entry about a request that the host hands over by itself, or about anything of the kind that
it writes into the journal. -/
def announced? (m : Machine σ) : Option JournalEntry :=
  match m.focus with
  | .code (.send request target _) =>
    (m.world.request? request).map fun r =>
      .issued m.world.now request r.caller (m.world.store.targetName target) r.operation
  | .code (.record entry _) => (some entry).filter fun e => e.issued?.isSome
  | _ => none

/-- The entries about requests that the next transition issues. -/
def issues (m : Machine σ) : List JournalEntry :=
  m.announced?.toList ++ m.parts.filterMap Part.issue?

theorem calls_issue (m : Machine σ) :
    m.calls.filterMap Call.issue? = m.parts.filterMap Part.issue? := by
  rw [calls_eq_parts, List.filterMap_filterMap]
  rfl

/-- Where the host does not meddle, a transition issues what its calls do. -/
theorem Next.issues_of_calls (hn : Next b c) (hhost : b.meddles = false)
    (henabled : b.world.journal.enabled = true) :
    c.world.journal.issues = b.world.journal.issues ++ b.parts.filterMap Part.issue? := by
  rcases hn.leads with ⟨deeds, v, hbegins, hcourse, -⟩
  have hplain : (deeds.filterMap Deed.entry?).filter (fun e => e.issued?.isSome) = [] := by
    rw [List.filter_eq_nil_iff]
    intro e he
    rcases List.mem_filterMap.1 he with ⟨d, hd, hentry⟩
    rw [Deed.issued?_of_plain ((hbegins.plain hhost).2 d hd) hentry]
    simp
  have hcalls : (b.parts.filterMap Part.issue?).filter (fun e => e.issued?.isSome) =
      b.parts.filterMap Part.issue? := by
    rw [List.filter_eq_self]
    intro e he
    rcases List.mem_filterMap.1 he with ⟨p, -, hissue⟩
    exact Part.issued?_of_issue? hissue
  have hv : v.journal.enabled = true := by
    rw [hbegins.path.journal, Journal.enabled_foldl]
    exact henabled
  rw [hcourse.journal, Journal.issues_foldl _ hv, calls_issue, hcalls, hbegins.path.journal,
    Journal.issues_foldl _ henabled, hplain, List.append_nil]

/-- Host code that meddles evaluates nothing, and writes what it announces. -/
theorem execScript_issues (w : World σ) (stack : List (Activation σ)) (script : Script σ)
    (hhost : meddles ⟨w, stack, .code script⟩ = true) (henabled : w.journal.enabled = true) :
    parts ⟨w, stack, .code script⟩ = [] ∧ (execScript w stack script).world.journal.issues =
      w.journal.issues ++ (announced? ⟨w, stack, .code script⟩).toList := by
  cases script with
  | allocate next => exact ⟨rfl, (List.append_nil _).symm⟩
  | request caller operation deadline succeeded failed next =>
    exact ⟨rfl, (List.append_nil _).symm⟩
  | send request target next =>
    refine ⟨rfl, ?_⟩
    rw [send_world]
    cases hr : w.request? request with
    | none =>
      have hnone : announced? ⟨w, stack, .code (.send request target next)⟩ = none := by
        simp [announced?, hr]
      rw [World.send_absent target hr, hnone]
      exact (List.append_nil _).symm
    | some r =>
      have hsome : announced? ⟨w, stack, .code (.send request target next)⟩ =
          some (.issued w.now request r.caller (w.store.targetName target) r.operation) := by
        simp [announced?, hr]
      rw [World.send_journal target hr, hsome]
      exact Journal.issues_foldl [_] henabled
  | record entry next =>
    refine ⟨rfl, ?_⟩
    have hentry : (announced? ⟨w, stack, .code (.record entry next)⟩).toList =
        [entry].filter fun e => e.issued?.isSome := by
      simp only [announced?, Option.filter, List.filter]
      split <;> simp_all
    rw [hentry]
    exact Journal.issues_foldl [entry] henabled
  | _ => cases hhost

theorem announced?_of_not_meddles (h : m.meddles = false) : m.announced? = none := by
  unfold announced?
  split
  · rename_i hfocus
    simp [meddles, hfocus] at h
  · rename_i hfocus
    simp [meddles, hfocus] at h
  · rfl

theorem Next.issues (hn : Next b c) (henabled : b.world.journal.enabled = true) :
    c.world.journal.issues = b.world.journal.issues ++ b.issues := by
  rcases b with ⟨w, stack, focus⟩
  cases hhost : meddles ⟨w, stack, focus⟩ with
  | false =>
    rw [hn.issues_of_calls hhost henabled, Machine.issues, announced?_of_not_meddles hhost]
    rfl
  | true =>
    cases focus with
    | code script =>
      rcases execScript_issues w stack script hhost henabled with ⟨hparts, hjournal⟩
      have hstep : Machine.step ⟨w, stack, .code script⟩ = some (execScript w stack script) := rfl
      rw [Machine.issues, hparts, List.filterMap_nil, List.append_nil, ← hjournal]
      cases hn with
      | step hs =>
        rw [hstep] at hs
        cases hs
        rfl
      | call _ hnone => cases hnone
    | _ => cases hhost

theorem Next.enabled (hn : Next b c) : c.world.journal.enabled = b.world.journal.enabled := by
  rcases hn.explains with ⟨deeds, hpath, -⟩
  rw [hpath.journal, Journal.enabled_foldl]

/-- The journal tells just what the transitions of a life have issued. -/
theorem Life.issues {a : Machine σ} (h : Life a past m) (henabled : a.world.journal.enabled = true) :
    m.world.journal.enabled = true ∧
      m.world.journal.issues = a.world.journal.issues ++ past.flatMap Machine.issues := by
  induction h with
  | refl => exact ⟨henabled, (List.append_nil _).symm⟩
  | next _ hn ih =>
    rcases ih with ⟨hbefore, hissues⟩
    refine ⟨hn.enabled.trans hbefore, ?_⟩
    rw [hn.issues hbefore, hissues, List.flatMap_append, List.flatMap_singleton, List.append_assoc]

/-- A journal that does not keep its entries tells of no requests. -/
theorem Life.issues_of_disabled {a : Machine σ} (h : Life a past m)
    (hdisabled : a.world.journal.enabled = false) :
    m.world.journal.enabled = false ∧ m.world.journal.issues = a.world.journal.issues := by
  induction h with
  | refl => exact ⟨hdisabled, rfl⟩
  | next _ hn ih =>
    rcases ih with ⟨hbefore, hissues⟩
    refine ⟨hn.enabled.trans hbefore, ?_⟩
    rcases hn.explains with ⟨deeds, hpath, -⟩
    rw [← hissues, Journal.issues, hpath.journal, Journal.entries_foldl_of_disabled _ hbefore]
    rfl

/-! ## As whom an evaluation begins -/

/-- The next transition has a target process a request: the host asks for it, or an event delivers
the request. -/
def Processes (m : Machine σ) (request : RequestId) (target : Target) : Prop :=
  (∃ next, m.focus = .code (.process request target next)) ∨
    ∃ e, m.taken? = some e ∧ e.work = .deliver request target

/-- The next transition begins an evaluation: of which text, in which scope, as whom, and for whom.
Bodies of operations get fresh scopes. -/
inductive Opens (m : Machine σ) : Opening σ → Prop where
  -- The host evaluates an activity, as whomever it says.
  | evaluated {activity : Activity} {caller : Caller} {resume : Outcome → Script σ}
      {next : Except SimulationError Unit → Script σ} :
      m.focus = .code (.evaluate activity caller resume next) →
        Opens m ⟨activity, World.root, caller, .host resume⟩
  -- The host executes an operation that it has got hold of.
  | executed {id : ServiceId} {op : Operation} {resume : Outcome → Script σ}
      {next : Except SimulationError Unit → Script σ} :
      m.focus = .code (.execute id op resume next) →
        Opens m ⟨op.body, ⟨m.world.store.scopes.size⟩, .operation op.owner op.name, .host resume⟩
  -- A service serves a request: it evaluates the body of the operation that the request names.
  | served {request : RequestId} {id : ServiceId} {service : Service} {r : Request}
      {op : Operation} :
      m.Processes request (.service id) → m.world.store.service? id = some service →
        m.world.request? request = some r → service.operations.find? r.operation = some op →
          Opens m ⟨op.body, ⟨m.world.store.scopes.size⟩, .operation service.name r.operation,
            .reply request⟩
  -- A client fires.
  | fired {e : Event (Callback σ)} {id : ClientId} {scope : ScopeId} {client : Client} :
      m.taken? = some e → e.work = .fire id scope → m.world.store.client? id = some client →
        Opens m ⟨client.body, scope, .client client.name, .complete id⟩

theorem opens_of_processed? {w : World σ} {stack : List (Activation σ)} {request : RequestId}
    {target : Target} {v : Invocation σ} (hprocesses : m.Processes request target)
    (hstore : w.store = m.world.store) (hrequests : w.requests = m.world.requests)
    (hsigned : m.world.store.Signed) (h : processed? w stack request target = some v) :
    m.Opens v.opening := by
  cases target with
  | endpoint id => cases h
  | service id =>
    simp only [processed?, hstore] at h
    split at h
    · rename_i service r hservice hr
      rcases Option.map_eq_some_iff.1 h with ⟨op, hop, rfl⟩
      rw [World.request?, hrequests, ← World.request?] at hr
      -- The operation is signed by the service that offers it.
      rcases hsigned id service r.operation op hservice hop with ⟨hname, howner⟩
      rw [Invocation.opening, Invocation.fresh, hname, howner, hstore]
      exact .served hprocesses hservice hr hop
    · cases h

/-- Where operations are signed, this is how evaluations begin. -/
theorem opens_of_opening? (hsigned : m.world.store.Signed) (h : m.opening? = some o) :
    m.Opens o := by
  rcases opening?_cases h with ⟨activity, caller, resume, next, hfocus, rfl⟩ | ⟨v, hv, rfl⟩ | hfires
  · exact .evaluated hfocus
  · rcases invokes?_cases hv with
      ⟨id, op, resume, next, service, hfocus, -, rfl⟩ | ⟨request, target, next, hfocus, hv⟩ |
      ⟨t, request, target, hturn, hwork, hv⟩
    · exact .executed hfocus
    · exact opens_of_processed? (Or.inl ⟨next, hfocus⟩) rfl rfl hsigned hv
    · have htaking := (turn?_spec hturn).1
      have hdelivers : m.Processes request target :=
        Or.inr ⟨t.event, by rw [taken?, hturn, Option.map_some], hwork⟩
      exact opens_of_processed? hdelivers htaking.store htaking.requests hsigned hv
  · rcases fires?_eq_some hfires with ⟨t, id, scope, client, hturn, hwork, hclient, rfl⟩
    rw [(turn?_spec hturn).1.store] at hclient
    exact .fired (by rw [taken?, hturn, Option.map_some]) hwork hclient

/-- An evaluation under way has begun. -/
theorem Underway.begun {thread : Thread σ} (h : Underway o past m thread) :
    ∃ x ∈ past ++ [m], x.opening? = some o := by
  induction h with
  | begins hopening => exact ⟨_, by simp, hopening⟩
  | goes _ ih =>
    rcases ih with ⟨x, hx, hopening⟩
    exact ⟨x, List.mem_append_left _ hx, hopening⟩

/-! ## Requests -/

/-- In any life of a simulation:

* if the journal keeps its entries, those about issued requests are just the ones that the host
  makes by itself, and those of the parts of the transitions that are accepted triggers and queries,
  in their order;
* each such part belongs to an evaluation under way, and the entry names the one that this evaluation
  has begun as, in whose text the trigger or the query is: the operation of the service that serves a
  request, the client that fires, or otherwise whoever the host evaluates the text as. -/
theorem Life.requests_attributed {config : SimulationConfig} {memory : σ}
    (h : Life (idle (World.start config memory)) past m) :
    (m.world.journal.issues = if config.journal then past.flatMap Machine.issues else []) ∧
    ∀ early b later, past = early ++ b :: later → ∀ p ∈ b.parts, ∀ e, p.issue? = some e →
      (∃ o thread, Underway o early b thread ∧ thread.acts b = true) ∧
      ∀ o thread, Underway o early b thread → thread.acts b = true →
        (∃ x ∈ early ++ [b], x.Opens o) ∧ o.Issues (· ∈ (early ++ [b]).flatMap parts) p e := by
  constructor
  · split
    · rename_i hjournal
      exact (h.issues hjournal).2
    · rename_i hjournal
      exact (h.issues_of_disabled (Bool.eq_false_iff.2 hjournal)).2
  · rintro early b later rfl p hp e hissue
    rcases h.cut with ⟨hbefore, c, hn, -⟩
    refine ⟨hbefore.evaluates hn (List.ne_nil_of_mem hp), ?_⟩
    intro o thread hunderway hacts
    rcases hunderway.placed hacts hbefore hn p hp with ⟨_, hplaced⟩
    refine ⟨?_, hplaced.issues hissue⟩
    rcases hunderway.begun with ⟨x, hx, hopening⟩
    rcases hbefore.through hx with ⟨_, _, hwhole, -⟩
    have hsigned := hwhole.signed (Store.signed_empty.of_services rfl)
    exact ⟨x, hx, opens_of_opening? hsigned hopening⟩

/-- A program in which one event passes the control from an operation to what is left of another one,
and from there to what is left of the program. The other operation defines a client, and a service
issues a request while it is defined. -/
def errands : Activity :=
  .sequence
    [.defineService "log" [.defineOperation "note" (.sequence [])],
      .defineService "depot" [.trigger "log" "note",
        .defineOperation "fetch" (.sequence [.think 1.0, .trigger "log" "note"])],
      .defineService "shop" [.defineOperation "work" (.sequence
        [.defineClient "clerk" 4.0 (.trigger "log" "note"), .query "depot" "fetch" none,
          .trigger "log" "note"])],
      .query "shop" "work" none,
      .trigger "log" "note"]

/-- Host code that evaluates it. -/
def dispatchErrands : Script Unit :=
  .evaluate errands .host (fun _ => .done) fun _ => .run 5.0 fun _ => .done

/-- A simulation that is about to execute this host code. -/
def sentOut : Machine Unit := ⟨World.start ⟨true, none⟩ (), [], .code dispatchErrands⟩

theorem life_sentOut (fuel : Nat) : Life (idle (World.start ⟨true, none⟩ ()))
    (idle (World.start ⟨true, none⟩ ()) :: trail fuel sentOut) (run fuel sentOut) :=
  (Life.refl.next (.call dispatchErrands rfl)).trans (life_run fuel _)

theorem errands_attributed :
    (run 50 sentOut).world.journal.issues =
      [.issued 0.0 ⟨0⟩ .host "log" "note", .issued 0.0 ⟨1⟩ .host "shop" "work",
        .issued 0.0 ⟨2⟩ (.operation "shop" "work") "depot" "fetch",
        .issued (0.0 + 1.0) ⟨3⟩ (.operation "depot" "fetch") "log" "note",
        .issued (0.0 + 1.0) ⟨4⟩ (.operation "shop" "work") "log" "note",
        .issued (0.0 + 1.0) ⟨5⟩ .host "log" "note",
        .issued (0.0 + 4.0) ⟨6⟩ (.client "clerk") "log" "note"] ∧
    (∀ n < 5, (run (16 + n) sentOut).taken? = none) ∧
    ∀ who ∈ [(16, .operation "depot" "fetch"), (18, .operation "shop" "work"), (20, .host)],
      ∃ o thread, Underway o (idle (World.start ⟨true, none⟩ ()) :: trail who.1 sentOut)
        (run who.1 sentOut) thread ∧ thread.acts (run who.1 sentOut) = true ∧ o.caller = who.2 := by
  have hissues (n : Nat) (time : Time) (id : RequestId) (caller : Caller)
      (hstep : (run n sentOut).step = some (run (n + 1) sentOut))
      (hissue : (run n sentOut).parts.filterMap Part.issue? =
        [.issued time id caller "log" "note"]) :
      ∃ o thread, Underway o (idle (World.start ⟨true, none⟩ ()) :: trail n sentOut)
        (run n sentOut) thread ∧ thread.acts (run n sentOut) = true ∧ o.caller = caller := by
    obtain ⟨p, hp, he⟩ := List.mem_filterMap.1 (hissue ▸ List.mem_singleton_self _)
    have hlife := (life_sentOut n).next (.step hstep)
    obtain ⟨⟨o, thread, hunderway, hacts⟩, hall⟩ :=
      hlife.requests_attributed.2 _ _ [] rfl p hp _ he
    obtain ⟨_, _, _, -, -, hentry⟩ := (hall o thread hunderway hacts).2.call
    rw [JournalEntry.issued.injEq] at hentry
    exact ⟨o, thread, hunderway, hacts, hentry.2.2.1.symm⟩
  refine ⟨?_, by decide +kernel, ?_⟩
  · rw [(life_sentOut 50).requests_attributed.1]
    with_unfolding_all rfl
  · refine List.forall_mem_cons.2 ⟨?_, List.forall_mem_cons.2 ⟨?_, List.forall_mem_singleton.2 ?_⟩⟩
    · exact hissues 16 _ _ _ (by with_unfolding_all rfl) (by with_unfolding_all rfl)
    · exact hissues 18 _ _ _ (by with_unfolding_all rfl) (by with_unfolding_all rfl)
    · exact hissues 20 _ _ _ (by with_unfolding_all rfl) (by with_unfolding_all rfl)

end Machine
end Callflow

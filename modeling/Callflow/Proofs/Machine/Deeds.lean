import Callflow.Machine.Step
import Callflow.Proofs.World.Evaluation

/-!
# What a machine is about to do

A machine tells by its focus and its stack what its next transition does to the world besides
evaluating programs: which event it takes (`taken?`), to which request it replies (`answer?`), and
what the host writes into the journal (`recorded?`).

Deeds explain a transition (`Explains`) when they are just these and quiet ones. A transition that
replies to no request takes an event or none (`Explains.takes`); another one replies once
(`Explains.answer`).
-/

namespace Callflow
namespace Machine

open World (Deed)

variable {σ : Type}

/-! ## Events, replies and entries -/

/-- An event that is about to be carried out, with the world and the callers it is carried out in. -/
structure Turn (σ : Type) where
  event : Event (Callback σ)
  world : World σ
  stack : List (Activation σ)

/-- The event that the next transition takes, if it takes one. -/
def turn? (m : Machine σ) : Option (Turn σ) :=
  match m.focus, m.stack with
  | .back (.ok ()), .run horizon count next :: stack =>
    if spent m.world count then none
    else (m.world.agenda.take? horizon).map fun (e, agenda) =>
      ⟨e, m.world.enter e agenda, .run horizon (count + 1) next :: stack⟩
  | _, _ => none

/-- The event that the next transition takes, if it takes one. -/
def taken? (m : Machine σ) : Option (Event (Callback σ)) := m.turn?.map Turn.event

/-- The time that the clock shows during the next transition, unless it only moves the clock. -/
def moment (m : Machine σ) : Time := (m.taken?.map Event.time).getD m.world.now

/-- A reply that is about to be made, with the world and the callers it is made in. -/
structure Answer (σ : Type) where
  world : World σ
  stack : List (Activation σ)
  request : RequestId
  failure : Option Failure

/-- The reply that a callback makes: the one that it is for, or the failure of a request that is
still pending at its deadline. -/
def Turn.answer? (t : Turn σ) : Option (Answer σ) :=
  match t.event.work with
  | .reply request failure => some ⟨t.world, t.stack, request, failure⟩
  | .expire request deadline =>
    if (t.world.request? request).any Request.isPending then
      some ⟨t.world, t.stack, request, some (.timedOut deadline)⟩
    else none
  | _ => none

/-- The reply that the next transition makes, if it makes one: from host code, from an operation
that has ended, or from an event. -/
def answer? (m : Machine σ) : Option (Answer σ) :=
  match m.focus with
  | .code (.reply request failure next) => some ⟨m.world, .await next :: m.stack, request, failure⟩
  | .resume (.reply request) (.success value) =>
    some ⟨m.world, .hold value.refs :: m.stack, request, none⟩
  | .resume (.reply request) (.failure cause) => some ⟨m.world, m.stack, request, some cause⟩
  | _ => m.turn?.bind Turn.answer?

/-- A reply, as a deed. -/
def Answer.deed (a : Answer σ) : Deed σ :=
  if (a.world.request? a.request).any Request.isPending then
    .settled a.world.now a.request a.failure
  else .stale a.world.now a.request a.failure

/-- The reply with which the next transition settles a request: one to a request that is pending. -/
def settling? (m : Machine σ) : Option (Answer σ) :=
  m.answer?.filter fun a => (m.world.request? a.request).any Request.isPending

/-- The request that a reply is made to, and the failure that it brings, if any. -/
def Answer.settlement (a : Answer σ) : RequestId × Option Failure := (a.request, a.failure)

/-- The reply to one request that the next transition makes, if it makes one. -/
def answerTo? (m : Machine σ) (id : RequestId) : Option (Answer σ) :=
  m.answer?.filter fun a => a.request = id

/-- What the host writes into the journal next. -/
def recorded? (m : Machine σ) : Option JournalEntry :=
  match m.focus with
  | .code (.record entry _) => some entry
  | _ => none

/-- The deeds are those of the next transition. -/
structure Explains (m : Machine σ) (deeds : List (Deed σ)) : Prop where
  taken : deeds.filterMap Deed.taken? = m.taken?.toList
  recorded : deeds.filterMap Deed.recorded? = m.recorded?.toList
  -- Replies to numbers that no request has do nothing.
  answered : ∀ id, (m.world.request? id).isSome →
    deeds.filter (Deed.answers id) = ((m.answerTo? id).map Answer.deed).toList
  settled : deeds.filterMap Deed.settled? = (m.settling?.map Answer.settlement).toList
  clocked : ∀ clock delay e, .agenda (.scheduled clock delay e) ∈ deeds → clock = m.moment
  -- Host code is scheduled by host code only.
  booked : ∀ clock delay e code, .agenda (.scheduled clock delay e) ∈ deeds →
    e.work = .host code → ∃ next, m.focus = .code (.schedule delay e.kind code next)

/-! ## Explanations -/

theorem taken?_of_isQuiet {d : Deed σ} (h : d.isQuiet = true) : d.taken? = none := by
  cases d with
  | agenda deed =>
    cases deed with
    | scheduled clock delay e => rfl
    | taken e => cases h
    | advanced horizon => cases h
  | issued time request caller service operation => rfl
  | settled time request failure => rfl
  | stale time request failure => rfl
  | recorded entry => rfl

theorem recorded?_of_isQuiet {d : Deed σ} (h : d.isQuiet = true) : d.recorded? = none := by
  cases d with
  | recorded entry => cases h
  | _ => rfl

theorem settled?_of_isQuiet {d : Deed σ} (h : d.isQuiet = true) : d.settled? = none := by
  cases d with
  | settled time request failure => cases h
  | _ => rfl

theorem answers_of_isQuiet {d : Deed σ} (id : RequestId) (h : d.isQuiet = true) :
    d.answers id = false := by
  cases d with
  | settled time request failure => cases h
  | stale time request failure => cases h
  | _ => rfl

/-- Quiet deeds after others leave the explanation as it is. -/
theorem Explains.append {m : Machine σ} {deeds more : List (Deed σ)} (h : Explains m deeds)
    (hquiet : ∀ d ∈ more, d.isQuiet = true)
    (hclock : ∀ clock delay e, .agenda (.scheduled clock delay e) ∈ more → clock = m.moment) :
    Explains m (deeds ++ more) where
  taken := by
    have hmore : more.filterMap Deed.taken? = [] :=
      List.filterMap_eq_nil_iff.2 fun d hd => taken?_of_isQuiet (hquiet d hd)
    rw [List.filterMap_append, hmore, List.append_nil]
    exact h.taken
  recorded := by
    have hmore : more.filterMap Deed.recorded? = [] :=
      List.filterMap_eq_nil_iff.2 fun d hd => recorded?_of_isQuiet (hquiet d hd)
    rw [List.filterMap_append, hmore, List.append_nil]
    exact h.recorded
  answered := by
    intro id hid
    have hmore : more.filter (Deed.answers id) = [] :=
      List.filter_eq_nil_iff.2 fun d hd => by simp [answers_of_isQuiet id (hquiet d hd)]
    rw [List.filter_append, hmore, List.append_nil]
    exact h.answered id hid
  settled := by
    have hmore : more.filterMap Deed.settled? = [] :=
      List.filterMap_eq_nil_iff.2 fun d hd => settled?_of_isQuiet (hquiet d hd)
    rw [List.filterMap_append, hmore, List.append_nil]
    exact h.settled
  clocked := by
    intro clock delay e hmem
    rcases List.mem_append.1 hmem with hmem | hmem
    · exact h.clocked clock delay e hmem
    · exact hclock clock delay e hmem
  booked := by
    intro clock delay e code hmem hwork
    rcases List.mem_append.1 hmem with hmem | hmem
    · exact h.booked clock delay e code hmem hwork
    · -- Quiet deeds schedule nothing in the name of the host.
      have hown := hquiet _ hmem
      simp [Deed.isQuiet, hwork, Callback.fromHost] at hown

/-- The event that is taken, as a deed. -/
def takes (m : Machine σ) : List (Deed σ) := m.taken?.toList.map fun e => .agenda (.taken e)

theorem takes_taken (m : Machine σ) : m.takes.filterMap Deed.taken? = m.taken?.toList := by
  unfold takes
  cases m.taken? with
  | none => rfl
  | some e => rfl

theorem takes_recorded (m : Machine σ) : m.takes.filterMap Deed.recorded? = [] := by
  unfold takes
  cases m.taken? with
  | none => rfl
  | some e => rfl

theorem takes_answers (m : Machine σ) (id : RequestId) :
    m.takes.filter (Deed.answers id) = [] := by
  unfold takes
  cases m.taken? with
  | none => rfl
  | some e => rfl

theorem takes_settled (m : Machine σ) : m.takes.filterMap Deed.settled? = [] := by
  unfold takes
  cases m.taken? with
  | none => rfl
  | some e => rfl

theorem not_mem_takes (m : Machine σ) (clock delay : Time) (e : Event (Callback σ)) :
    Deed.agenda (.scheduled clock delay e) ∉ m.takes := by
  simp [takes]

/-- A transition that replies to no request. -/
theorem Explains.takes {m : Machine σ} (hrecorded : m.recorded? = none)
    (hanswer : ∀ id, (m.world.request? id).isSome → m.answerTo? id = none) :
    Explains m m.takes where
  taken := m.takes_taken
  recorded := by
    rw [takes_recorded, hrecorded]
    rfl
  answered := by
    intro id hid
    rw [takes_answers, hanswer id hid]
    rfl
  settled := by
    -- A reply that settles a request is one to a request that has been made.
    have hnone : m.settling? = none := by
      rw [settling?, Option.filter_eq_none_iff]
      intro a ha hpending
      rcases (Option.any_eq_true _ _).1 hpending with ⟨r, hr, -⟩
      have hreply := hanswer a.request (by simp [hr])
      simp [answerTo?, ha] at hreply
    rw [takes_settled, hnone]
    rfl
  clocked := by
    intro clock delay e hmem
    exact absurd hmem (not_mem_takes m clock delay e)
  booked := by
    intro clock delay e code hmem _
    exact absurd hmem (not_mem_takes m clock delay e)

theorem Answer.filter_deed (a : Answer σ) (id : RequestId) :
    [a.deed].filter (Deed.answers id) = if a.request = id then [a.deed] else [] := by
  have hanswers : a.deed.answers id = decide (a.request = id) := by
    unfold deed
    split <;> rfl
  by_cases h : a.request = id <;> simp [hanswers, h]

theorem Answer.not_mem_takes_append (a : Answer σ) (m : Machine σ) (clock delay : Time)
    (e : Event (Callback σ)) : Deed.agenda (.scheduled clock delay e) ∉ m.takes ++ [a.deed] := by
  intro hmem
  rcases List.mem_append.1 hmem with hmem | hmem
  · exact not_mem_takes m clock delay e hmem
  · rw [List.mem_singleton] at hmem
    unfold deed at hmem
    split at hmem <;> cases hmem

/-- A transition that replies to a request. -/
theorem Explains.answer {m : Machine σ} {a : Answer σ} (hrecorded : m.recorded? = none)
    (hanswer : m.answer? = some a)
    (hsame : a.world.request? a.request = m.world.request? a.request) :
    Explains m (m.takes ++ [a.deed]) where
  taken := by
    have hdeed : [a.deed].filterMap Deed.taken? = [] := by
      unfold Answer.deed
      split <;> rfl
    rw [List.filterMap_append, hdeed, List.append_nil]
    exact m.takes_taken
  recorded := by
    have hdeed : [a.deed].filterMap Deed.recorded? = [] := by
      unfold Answer.deed
      split <;> rfl
    rw [List.filterMap_append, hdeed, takes_recorded, hrecorded]
    rfl
  answered := by
    intro id _
    rw [List.filter_append, takes_answers, a.filter_deed, answerTo?, hanswer, Option.filter_some]
    by_cases h : a.request = id <;> simp [h]
  settled := by
    rw [List.filterMap_append, takes_settled, List.nil_append, settling?, hanswer,
      Option.filter_some, ← hsame, Answer.deed]
    by_cases h : (a.world.request? a.request).any Request.isPending = true <;>
      simp [h, Deed.settled?, Answer.settlement]
  clocked := by
    intro clock delay e hmem
    exact absurd hmem (a.not_mem_takes_append m clock delay e)
  booked := by
    intro clock delay e code hmem _
    exact absurd hmem (a.not_mem_takes_append m clock delay e)

end Machine
end Callflow

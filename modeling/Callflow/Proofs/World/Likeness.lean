import Callflow.Proofs.Agenda.Fifo
import Callflow.Proofs.World.Menu
import Callflow.Proofs.World.Parking

/-!
# What belongs to an evaluation

What is done on behalf of an evaluation is a `Family` of requests and events. In another simulation
the same activity has another family, whose requests and events correspond to these in their order.
Two continuations, callbacks or events are `Like` each other if they do the same for the two families:
the requests have other numbers, and so have the events and the scopes, but all times, failures and
bodies are the same. They stay like each other when the families grow.
-/

namespace Callflow

variable {σ : Type}

/-! ## Activities that define nothing -/

/-- An activity without definitions. -/
inductive Activity.Free : Activity → Prop where
  | trigger {target operation : String} : Free (.trigger target operation)
  | query {target operation : String} {timeout : Option Time} :
      Free (.query target operation timeout)
  | sequence {steps : List Activity} : (∀ step ∈ steps, step.Free) → Free (.sequence steps)
  | think {duration : Time} : Free (.think duration)
  | retry {body : Activity} {limit : Nat} {delay : Delay} :
      body.Free → Free (.retry body limit delay)
  | ignoreError {body : Activity} : body.Free → Free (.ignoreError body)
  | fail : Free .fail

/-- The operations of a menu define nothing. -/
def Menu.Free (menu : Menu) : Prop :=
  ∀ directory ∈ menu.operations, ∀ name op, directory.find? name = some op → op.body.Free

/-! ## Families -/

/-- What belongs to an evaluation: the host code that gets its outcome, the requests that were
issued on its behalf, in their order, and the numbers of its events. -/
structure Family (σ : Type) where
  code : Outcome → Script σ
  requests : List RequestId
  seqs : List Nat

namespace Family

/-- Whether an event is one of the family. -/
def owns {α : Type} (F : Family σ) (e : Event α) : Bool := decide (e.seq ∈ F.seqs)

/-- The events of the family that are to come. -/
def events (F : Family σ) (w : World σ) : List (Event (Callback σ)) :=
  w.agenda.pending.filter F.owns

/-- The family with all that was made between two worlds. -/
def grow (F : Family σ) (w v : World σ) : Family σ where
  code := F.code
  requests := F.requests ++
    (List.range' w.requests.size (v.requests.size - w.requests.size)).map RequestId.mk
  seqs := F.seqs ++ List.range' w.agenda.nextSeq (v.agenda.nextSeq - w.agenda.nextSeq)

/-- The events and requests of a family stay as they are between two worlds. -/
structure Kept (F : Family σ) (w v : World σ) : Prop where
  requests : ∀ id ∈ F.requests, v.request? id = w.request? id
  waiters : ∀ id ∈ F.requests, v.waiter id = w.waiter id
  events : F.events v = F.events w

/-- The requests with the same place in two families. -/
def Paired (F F' : Family σ) (id id' : RequestId) : Prop := (id, id') ∈ F.requests.zip F'.requests

theorem Paired.mem {F F' : Family σ} {id id' : RequestId} (h : Paired F F' id id') :
    id ∈ F.requests ∧ id' ∈ F'.requests :=
  List.of_mem_zip h

theorem Paired.symm {F F' : Family σ} {id id' : RequestId} (h : Paired F F' id id') :
    Paired F' F id' id := by
  rcases List.mem_iff_getElem.1 h with ⟨i, hi, hpair⟩
  rw [List.getElem_zip, Prod.mk.injEq] at hpair
  rw [List.length_zip] at hi
  refine List.mem_iff_getElem.2 ⟨i, by rw [List.length_zip]; omega, ?_⟩
  rw [List.getElem_zip, hpair.1, hpair.2]

/-- The place of a request in a family. -/
def place (F : Family σ) (id : RequestId) : Nat := F.requests.idxOf id

section

variable {F F' : Family σ} {id id' other other' : RequestId}

theorem Paired.place (h : Paired F F' id id') (hF : F.requests.Nodup) (hF' : F'.requests.Nodup) :
    F'.place id' = F.place id := by
  rcases List.mem_iff_getElem.1 h with ⟨i, hi, hpair⟩
  rw [List.getElem_zip, Prod.mk.injEq] at hpair
  rcases hpair with ⟨rfl, rfl⟩
  rw [Family.place, Family.place, hF.idxOf_getElem, hF'.idxOf_getElem]

/-- A request has one partner. -/
theorem Paired.eq_iff (h : Paired F F' id id') (k : Paired F F' other other')
    (hF : F.requests.Nodup) (hF' : F'.requests.Nodup) : id' = other' ↔ id = other := by
  rw [← List.idxOf_inj h.mem.1, ← List.idxOf_inj h.mem.2]
  show F'.place id' = F'.place other' ↔ F.place id = F.place other
  rw [h.place hF hF', k.place hF hF']

/-- Families of the same size are paired throughout. -/
theorem forall₂_paired (h : F.requests.length = F'.requests.length) :
    List.Forall₂ (Paired F F') F.requests F'.requests :=
  List.forall₂_iff_zip.2 ⟨h, fun hid => hid⟩

end

end Family

namespace World

/-- No numbers are given back from one world to another. -/
structure Ahead (w v : World σ) : Prop where
  size : w.requests.size ≤ v.requests.size
  seq : w.agenda.nextSeq ≤ v.agenda.nextSeq

theorem Ahead.refl (w : World σ) : Ahead w w := ⟨le_rfl, le_rfl⟩

theorem Ahead.trans {w v u : World σ} (h : Ahead w v) (k : Ahead v u) : Ahead w u :=
  ⟨h.size.trans k.size, h.seq.trans k.seq⟩

end World

open World (Ahead)
open Family (Paired)

namespace Family

variable {F F' : Family σ} {w v u w' v' u' : World σ}

theorem grow_self (F : Family σ) (w : World σ) : F.grow w w = F := by
  simp [grow]

theorem grow_grow (F : Family σ) (h : Ahead w v) (k : Ahead v u) :
    (F.grow w v).grow v u = F.grow w u := by
  have hrange {a b c : Nat} (hab : a ≤ b) (hbc : b ≤ c) :
      List.range' a (b - a) ++ List.range' b (c - b) = List.range' a (c - a) := by
    have happend : List.range' a (b - a) ++ List.range' (a + 1 * (b - a)) (c - b) =
        List.range' a (b - a + (c - b)) := List.range'_append
    rw [Nat.one_mul, Nat.add_sub_cancel' hab] at happend
    rw [happend]
    congr 1
    omega
  simp only [grow, List.append_assoc, ← List.map_append, hrange h.size k.size,
    hrange h.seq k.seq]

theorem paired_grow {id id' : RequestId} (h : Paired F F' id id')
    (hlength : F.requests.length = F'.requests.length) :
    Paired (F.grow w v) (F'.grow w' v') id id' := by
  rw [Paired, grow, grow, List.zip_append hlength]
  exact List.mem_append_left _ h

end Family
/-! ## Likeness -/

section

variable (F F' : Family σ)

/-- Two continuations do the same for two families. The host code of the families gets the outcome
in the end, or two requests do that correspond to each other. -/
inductive Continuation.Like : Continuation σ → Continuation σ → Prop where
  | host : Like (.host F.code) (.host F'.code)
  | reply {id id' : RequestId} : Paired F F' id id' → Like (.reply id) (.reply id')
  | steps {rest : List Activity} {frame frame' : Frame} {next next' : Continuation σ} :
      (∀ step ∈ rest, step.Free) → frame'.caller = frame.caller → Like next next' →
        Like (.steps rest frame next) (.steps rest frame' next')
  | ignore {next next' : Continuation σ} : Like next next' → Like (.ignore next) (.ignore next')
  | retry {state : RetryState} {body : Activity} {frame frame' : Frame}
      {next next' : Continuation σ} : body.Free → frame'.caller = frame.caller → Like next next' →
        Like (.retry state body frame next) (.retry state body frame' next')

/-- Two callbacks do the same for two families. -/
inductive Callback.Like : Callback σ → Callback σ → Prop where
  | wake {next next' : Continuation σ} : next.Like F F' next' → Like (.wake next) (.wake next')
  | attempt {state : RetryState} {body : Activity} {frame frame' : Frame}
      {next next' : Continuation σ} : body.Free → frame'.caller = frame.caller →
        next.Like F F' next' →
          Like (.attempt state body frame next) (.attempt state body frame' next')
  | deliver {id id' : RequestId} (service : ServiceId) : Paired F F' id id' →
      Like (.deliver id (.service service)) (.deliver id' (.service service))
  | expire {id id' : RequestId} (deadline : Time) : Paired F F' id id' →
      Like (.expire id deadline) (.expire id' deadline)

inductive Waiter.Like : Waiter σ → Waiter σ → Prop where
  | nobody : Like .nobody .nobody
  | continuation {next next' : Continuation σ} : next.Like F F' next' →
      Like (.continuation next) (.continuation next')

/-- Two events do the same at the same time. -/
structure Event.Like (e e' : Event (Callback σ)) : Prop where
  time : e'.time = e.time
  work : e.work.Like F F' e'.work

end

/-- Two requests are the same but for their numbers. -/
def Request.Like (r r' : Request) : Prop := r' = { r with id := r'.id }

section

variable {F F' : Family σ}

theorem Continuation.Like.symm {k k' : Continuation σ} (h : k.Like F F' k') : k'.Like F' F k := by
  induction h with
  | host => exact .host
  | reply hid => exact .reply hid.symm
  | steps hrest hcaller _ ih => exact .steps hrest hcaller.symm ih
  | ignore _ ih => exact .ignore ih
  | retry hbody hcaller _ ih => exact .retry hbody hcaller.symm ih

theorem Callback.Like.symm {work work' : Callback σ} (h : work.Like F F' work') :
    work'.Like F' F work := by
  cases h with
  | wake hk => exact .wake hk.symm
  | attempt hbody hcaller hk => exact .attempt hbody hcaller.symm hk.symm
  | deliver service hid => exact .deliver service hid.symm
  | expire deadline hid => exact .expire deadline hid.symm

theorem Waiter.Like.symm {waiter waiter' : Waiter σ} (h : waiter.Like F F' waiter') :
    waiter'.Like F' F waiter := by
  cases h with
  | nobody => exact .nobody
  | continuation hk => exact .continuation hk.symm

theorem Event.Like.symm {e e' : Event (Callback σ)} (h : e.Like F F' e') : e'.Like F' F e :=
  ⟨h.time.symm, h.work.symm⟩

end

section

variable {F F' : Family σ} {w v w' v' : World σ}

theorem Continuation.Like.grow {k k' : Continuation σ} (h : k.Like F F' k')
    (hlength : F.requests.length = F'.requests.length) :
    k.Like (F.grow w v) (F'.grow w' v') k' := by
  induction h with
  | host => exact .host
  | reply hid => exact .reply (Family.paired_grow hid hlength)
  | steps hrest hcaller _ ih => exact .steps hrest hcaller ih
  | ignore _ ih => exact .ignore ih
  | retry hbody hcaller _ ih => exact .retry hbody hcaller ih

theorem Callback.Like.grow {work work' : Callback σ} (h : work.Like F F' work')
    (hlength : F.requests.length = F'.requests.length) :
    work.Like (F.grow w v) (F'.grow w' v') work' := by
  cases h with
  | wake hk => exact .wake (hk.grow hlength)
  | attempt hbody hcaller hk => exact .attempt hbody hcaller (hk.grow hlength)
  | deliver service hid => exact .deliver service (Family.paired_grow hid hlength)
  | expire deadline hid => exact .expire deadline (Family.paired_grow hid hlength)

theorem Waiter.Like.grow {waiter waiter' : Waiter σ} (h : waiter.Like F F' waiter')
    (hlength : F.requests.length = F'.requests.length) :
    waiter.Like (F.grow w v) (F'.grow w' v') waiter' := by
  cases h with
  | nobody => exact .nobody
  | continuation hk => exact .continuation (hk.grow hlength)

theorem Event.Like.grow {e e' : Event (Callback σ)} (h : e.Like F F' e')
    (hlength : F.requests.length = F'.requests.length) :
    e.Like (F.grow w v) (F'.grow w' v') e' :=
  ⟨h.time, h.work.grow hlength⟩

end

theorem Request.Like.symm {r r' : Request} (h : r.Like r') : r'.Like r := by
  unfold Request.Like at h ⊢
  rw [h]

theorem Request.Like.isPending {r r' : Request} (h : r.Like r') : r'.isPending = r.isPending := by
  rw [h]
  rfl

theorem Request.Like.operation {r r' : Request} (h : r.Like r') : r'.operation = r.operation := by
  rw [h]

theorem Request.Like.settle {r r' : Request} (h : r.Like r') (time : Time)
    (failure : Option Failure) : (r.settle time failure).Like (r'.settle time failure) := by
  unfold Request.Like at h ⊢
  rw [h]
  rfl

end Callflow

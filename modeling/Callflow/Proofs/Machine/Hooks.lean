import Callflow.Proofs.Machine.Slots

/-!
# Which hooks are called

The end of a client's body calls the hook for it just if one has been set or has returned since the
body has last ended in the same way, and then it calls the one that has been set last, unless a hook has
been given up since: `Life.hook_called_iff`. So a body that ends while the hook of an earlier one is
being run is not noticed, unless another hook has been set (`burst_unnoticed`).
-/

namespace Callflow

variable {σ : Type}

/-- How often a client's body has ended like this. -/
def Client.ended (c : Client) : Outcome → Nat
  | .success _ => c.successes
  | .failure _ => c.errors

namespace Machine

/-! ## The end of a body -/

/-- Whether the next transition calls a hook for an outcome of a client's body. -/
def invokes (id : ClientId) (outcome : Outcome) (m : Machine σ) : Bool :=
  m.step.any fun n => decide ((m.slot id outcome).running.length < (n.slot id outcome).running.length)

theorem move?_eq_due {id : ClientId} {outcome : Outcome} {m : Machine σ} :
    m.move? id outcome = some .due ↔ m.endsLike id outcome = true := by
  rcases m with ⟨w, stack, focus⟩
  cases focus with
  | resume next result => simp [move?]
  | code script => simp [move?, endsLike, counts?]
  | back result => cases stack <;> simp [move?, endsLike, counts?]
  | crash cause => cases stack <;> simp [move?, endsLike, counts?]

/-- The hook that returns is the innermost one. -/
theorem move?_eq_returned {id : ClientId} {outcome : Outcome} {m : Machine σ} {hook : Script σ}
    (h : m.move? id outcome = some (.returned hook)) :
    (m.slot id outcome).running.head? = some hook := by
  rcases m with ⟨w, stack, focus⟩
  unfold move? at h
  split at h
  · simp at h
  · simp at h
  · rename_i result caller callers hfocus hstack
    cases hstack
    rcases Option.map_eq_some_iff.1 h with ⟨other, hhook, hsame⟩
    cases hsame
    rw [slot, World.slot_hook w callers hhook]
    rfl
  · simp at h
  · cases h

theorem endsLike_step {id : ClientId} {outcome : Outcome} {m : Machine σ}
    (h : m.endsLike id outcome = true) : ∃ n, m.step = some n := by
  rcases m with ⟨w, stack, focus⟩
  cases focus with
  | resume next result => exact ⟨_, rfl⟩
  | _ => cases h

/-- A hook is called just where a body ends and a hook is set for it. -/
theorem invokes_iff (id : ClientId) (outcome : Outcome) (m : Machine σ) :
    m.invokes id outcome = true ↔
      m.endsLike id outcome = true ∧ (m.slot id outcome).hook?.isSome := by
  unfold invokes
  cases hs : m.step with
  | none =>
    refine iff_of_false (by simp) ?_
    rintro ⟨hends, -⟩
    rcases endsLike_step hends with ⟨n, hn⟩
    cases hs.symm.trans hn
  | some n =>
    rw [Option.any_some, (Next.step hs).moves_slot id outcome, ← move?_eq_due]
    generalize m.slot id outcome = s
    rcases s with ⟨hook?, running⟩
    rcases m.move? id outcome with _ | (hook | _ | hook | _)
    · simp
    · simp [Slot.apply]
    · cases hook? <;> simp [Slot.apply]
    · simp [Slot.apply]
    · simp [Slot.apply]

/-- Where a body ends, the hook that is set is run; where none is set, nothing is. -/
theorem complete_focus (w : World σ) (stack : List (Activation σ)) (id : ClientId)
    (outcome : Outcome) :
    (w.hook? id outcome = none → (complete w stack id outcome).focus = .back (.ok ()) ∧
      (complete w stack id outcome).stack = stack) ∧
    ∀ hook, w.hook? id outcome = some hook → (complete w stack id outcome).focus = .code hook := by
  cases outcome with
  | success value =>
    rcases complete_success w stack id value with ⟨v, hsame, hcomplete⟩
    have hhook : w.hook? id (.success value) = (v.observersOf id).onSuccess := by
      rw [World.hook?, World.observersOf, World.observersOf, hsame]
    rw [hcomplete, hhook]
    cases (v.observersOf id).onSuccess <;> simp
  | failure cause =>
    rcases complete_failure w stack id cause with ⟨v, hsame, hcomplete⟩
    have hhook : w.hook? id (.failure cause) =
        (v.observersOf id).onFailure.map fun hook => hook cause := by
      rw [World.hook?, World.observersOf, World.observersOf, hsame]
    rw [hcomplete, hhook]
    cases (v.observersOf id).onFailure <;> simp

theorem step_of_counts {id : ClientId} {outcome : Outcome} {m : Machine σ}
    (h : m.counts? id = some outcome) :
    m.step = some (complete m.world m.stack id outcome) := by
  rcases m with ⟨w, stack, focus⟩
  unfold counts? at h
  split at h
  · rename_i client result hfocus
    cases hfocus
    split at h
    · rename_i hsame
      cases h
      rw [← hsame]
      rfl
    · cases h
  · cases h

/-! ## The record of a client -/

theorem fire_client {w : World σ} {id : ClientId} {client : Client} (stack : List (Activation σ))
    (scope : ScopeId) (hclient : w.store.client? id = some client) :
    (fire w stack id scope).world.store.client? id =
      some { client with firings := client.firings + 1 } := by
  unfold fire
  rw [hclient]
  dsimp only
  split
  · exact (World.client?_modifyClient ..).trans (by rw [if_pos rfl, hclient]; rfl)
  · rename_i v event hs
    have hrecord := (World.rearmed hclient hs).1
    have hrest := evaluate_harmless v (.hold [.scope scope] :: stack) client.body
      (.plain scope (.client client.name)) (.complete id)
    rw [(hrest.untouched id (Or.inl (by rw [hrecord]; rfl))).client, hrecord]

/-- The record of a client counts the ends of its body, and nothing else. -/
theorem Next.ended {m n : Machine σ} (h : Next m n) {id : ClientId} {client : Client}
    (hclient : m.world.store.client? id = some client) (outcome : Outcome) :
    ∃ now, n.world.store.client? id = some now ∧
      now.ended outcome = client.ended outcome + (m.endsLike id outcome).toNat := by
  have hsame (hcounts : m.counts? id = none) (hrecord : n.world.store.client? id = some client) :
      ∃ now, n.world.store.client? id = some now ∧
        now.ended outcome = client.ended outcome + (m.endsLike id outcome).toNat :=
    ⟨client, hrecord, by rw [endsLike, hcounts]; rfl⟩
  cases h.affects with
  | harmless _ hcounts hharmless =>
    refine hsame (hcounts id) ?_
    rw [(hharmless.untouched id (Or.inl (by rw [hclient]; rfl))).client, hclient]
  | @counts other result hfocus hstore _ =>
    by_cases hother : other = id
    · refine ⟨client.count result, ?_, ?_⟩
      · rw [hstore, World.client?_modifyClient, if_pos hother, hclient]
        rfl
      · rw [endsLike, counts?, hfocus]
        cases result <;> cases outcome <;>
          simp [hother, Client.count, Client.ended, Outcome.isSuccess]
    · refine hsame (by simp [counts?, hfocus, hother]) ?_
      rw [hstore, World.client?_modifyClient, if_neg hother, hclient]
  | @takes t hturn _ hharmless =>
    refine hsame (counts?_of_turn? hturn id) ?_
    rw [← (turn?_spec hturn).1.store] at hclient
    rw [(hharmless.untouched id (Or.inl (by rw [hclient]; rfl))).client, hclient]
  | @fires t other scope hturn _ hfire =>
    have hcounts := counts?_of_turn? hturn id
    rw [← (turn?_spec hturn).1.store] at hclient
    rw [hfire] at hsame ⊢
    by_cases hother : id = other
    · subst hother
      refine ⟨_, fire_client t.stack scope hclient, ?_⟩
      rw [endsLike, hcounts]
      cases outcome <;> rfl
    · have huntouched := fire_untouched t.world t.stack scope hother (Or.inl (by rw [hclient]; rfl))
      exact hsame hcounts (huntouched.client.trans hclient)

theorem Life.ended {a b : Machine σ} {past : List (Machine σ)} (h : Life a past b) {id : ClientId}
    {client : Client} (hclient : a.world.store.client? id = some client) (outcome : Outcome) :
    ∃ now, b.world.store.client? id = some now ∧
      now.ended outcome = client.ended outcome + past.countP (endsLike id outcome) := by
  induction h with
  | refl => exact ⟨client, hclient, rfl⟩
  | next _ hn ih =>
    rcases ih with ⟨before, hbefore, hended⟩
    rcases hn.ended hbefore outcome with ⟨now, hnow, hmore⟩
    refine ⟨now, hnow, ?_⟩
    rw [hmore, hended, List.countP_append, List.countP_singleton, Nat.add_assoc]
    cases endsLike id outcome _ <;> rfl

/-! ## Along a life -/

/-- What some machines have made of a slot. -/
def moves (id : ClientId) (outcome : Outcome) (past : List (Machine σ)) : List (Slot.Move σ) :=
  past.filterMap (move? id outcome)

theorem Life.moves_slot {a b : Machine σ} {past : List (Machine σ)} (h : Life a past b)
    (id : ClientId) (outcome : Outcome) :
    b.slot id outcome = (moves id outcome past).foldl Slot.apply (a.slot id outcome) := by
  induction h with
  | refl => rfl
  | @next past b c _ hn ih =>
    rw [hn.moves_slot, moves, filterMap_concat, List.foldl_append, ← moves, ← ih]
    cases b.move? id outcome <;> rfl

/-- The hook that has been set last is set, or it is the innermost one that is being run, unless a hook
has been given up since. -/
theorem Life.latest {a b : Machine σ} {past : List (Machine σ)} (h : Life a past b)
    {id : ClientId} {outcome : Outcome} {hook : Script σ}
    (hlatest : Slot.Latest hook (moves id outcome past)) :
    (b.slot id outcome).hook? = some hook ∨
      ((b.slot id outcome).hook? = none ∧ (b.slot id outcome).running.head? = some hook) := by
  induction h with
  | refl =>
    rcases hlatest with ⟨before, after, hnil, -⟩
    simp [moves] at hnil
  | @next past b c _ hn ih =>
    rw [moves, filterMap_concat, ← moves] at hlatest
    have hslot := hn.moves_slot id outcome
    cases hmove : b.move? id outcome with
    | none =>
      rw [hmove] at hslot hlatest
      rw [hslot]
      exact ih (by simpa using hlatest)
    | some move =>
      rw [hmove] at hslot hlatest
      rw [hslot]
      rcases hlatest.concat with rfl | ⟨hearlier, rfl | ⟨other, rfl⟩⟩
      · exact Or.inl rfl
      · rcases ih hearlier with hset | ⟨hnone, hrunning⟩
        · exact Or.inr ⟨rfl, by simp [Slot.apply, hset]⟩
        · exact Or.inr ⟨rfl, by simpa [Slot.apply, hnone] using hrunning⟩
      · left
        rcases ih hearlier with hset | ⟨hnone, hrunning⟩
        · simp [Slot.apply, hset]
        · have hsame := hrunning.symm.trans (move?_eq_returned hmove)
          simp [Slot.apply, hnone, hsame]

/-- A hook is set when one has been set or has returned since the last body has ended. -/
theorem Life.hook?_isSome_iff {config : SimulationConfig} {memory : σ} {past : List (Machine σ)}
    {m : Machine σ} (h : Life (idle (World.start config memory)) past m) (id : ClientId)
    (outcome : Outcome) :
    (m.slot id outcome).hook?.isSome ↔ Slot.Ready (moves id outcome past) := by
  rw [h.moves_slot id outcome]
  refine Slot.hook?_isSome_iff ?_ _
  cases outcome <;> rfl

/-- Every hook that is called counts as the end of a body, and a body whose end calls none finds no hook
set. -/
theorem countP_invokes (past : List (Machine σ)) (id : ClientId) (outcome : Outcome) :
    past.countP (invokes id outcome) ≤ past.countP (endsLike id outcome) ∧
      (past.countP (invokes id outcome) = past.countP (endsLike id outcome) ↔
        ∀ x ∈ past, x.endsLike id outcome = true → x.invokes id outcome = true) := by
  have hsplit : past.countP (endsLike id outcome) = past.countP (invokes id outcome) +
      past.countP fun x => x.endsLike id outcome && !x.invokes id outcome := by
    induction past with
    | nil => rfl
    | cons x past ih =>
      rw [List.countP_cons, List.countP_cons, List.countP_cons, ih]
      have himp := fun h => ((invokes_iff id outcome x).1 h).1
      cases hx : x.endsLike id outcome <;> cases hy : x.invokes id outcome <;> simp_all <;> omega
  refine ⟨hsplit ▸ Nat.le_add_right _ _, ?_⟩
  rw [hsplit, left_eq_add, List.countP_eq_zero]
  simp

/-- Over the whole life of a simulation, whatever the hooks do, and for any way in which the body of a
client may end:

* where the body ends, a hook is called just if one has been set or has returned since the last time
  that the body has ended in this way; otherwise nothing is done;
* the hook that is called is the one that has been set last, unless a hook has been given up since;
* the record of the client counts the ends of its body; they are as many as the hooks called if there
  was a hook for each of them, and otherwise more. -/
theorem Life.hook_called_iff {config : SimulationConfig} {memory : σ} {early past : List (Machine σ)}
    {a b : Machine σ} (h : Life (idle (World.start config memory)) early a) (hlater : Life a past b)
    {id : ClientId} {client : Client} (hclient : a.world.store.client? id = some client)
    (outcome : Outcome) :
    (∀ before x after, past = before ++ x :: after → x.counts? id = some outcome →
      ∃ n, x.step = some n ∧
        (Slot.Ready (moves id outcome (early ++ before)) → ∃ hook, n.focus = .code hook ∧
          (n.slot id outcome).running = hook :: (x.slot id outcome).running ∧
          ∀ last, Slot.Latest last (moves id outcome (early ++ before)) → hook = last) ∧
        (¬ Slot.Ready (moves id outcome (early ++ before)) →
          n.focus = .back (.ok ()) ∧ n.stack = x.stack)) ∧
    (∃ now, b.world.store.client? id = some now ∧
      now.ended outcome = client.ended outcome + past.countP (endsLike id outcome)) ∧
    past.countP (invokes id outcome) ≤ past.countP (endsLike id outcome) ∧
    (past.countP (invokes id outcome) = past.countP (endsLike id outcome) ↔
      ∀ before x after, past = before ++ x :: after → x.endsLike id outcome = true →
        Slot.Ready (moves id outcome (early ++ before))) := by
  have hlife {before after : List (Machine σ)} {x : Machine σ} (hpast : past = before ++ x :: after) :
      Life (idle (World.start config memory)) (early ++ before) x := by
    rw [hpast] at hlater
    exact h.trans hlater.cut.1
  rcases countP_invokes past id outcome with ⟨hle, hall⟩
  refine ⟨?_, hlater.ended hclient outcome, hle, hall.trans ⟨fun hevery => ?_, fun hready => ?_⟩⟩
  · intro before x after hpast hcounts
    have hx := hlife hpast
    have hstep := step_of_counts hcounts
    rcases complete_focus x.world x.stack id outcome with ⟨hnone, hsome⟩
    refine ⟨_, hstep, fun hready => ?_, fun hnot => ?_⟩
    · rcases Option.isSome_iff_exists.1 ((hx.hook?_isSome_iff id outcome).2 hready) with ⟨hook, hhook⟩
      have hends : x.endsLike id outcome = true := by simp [endsLike, hcounts]
      refine ⟨hook, hsome hook hhook, ?_, fun last hlatest => ?_⟩
      · rw [(Next.step hstep).moves_slot id outcome, move?_eq_due.2 hends]
        simp [Slot.apply, hhook]
      · rcases hx.latest hlatest with hset | ⟨hunset, -⟩
        · exact Option.some.inj (hhook.symm.trans hset)
        · cases hhook.symm.trans hunset
    · refine hnone ?_
      rw [← hx.hook?_isSome_iff id outcome, Bool.not_eq_true, Option.isSome_eq_false_iff,
        Option.isNone_iff_eq_none] at hnot
      exact hnot
  · intro before x after hpast hends
    have hinvokes := hevery x (by simp [hpast]) hends
    exact ((hlife hpast).hook?_isSome_iff id outcome).1 ((invokes_iff id outcome x).1 hinvokes).2
  · intro x hx hends
    rcases List.append_of_mem hx with ⟨before, after, hpast⟩
    exact (invokes_iff id outcome x).2
      ⟨hends, ((hlife hpast).hook?_isSome_iff id outcome).2 (hready before x after hpast hends)⟩

/-- A client whose body takes half of its period, with hooks for both outcomes. The hook for success
goes on with the simulation until the next body has ended. -/
def burst : Script Unit :=
  .evaluate (.defineClient "load" 1.0 (.think 0.5)) .host (fun _ => .done) fun _ =>
    .onSuccess ⟨0⟩ (.run 2.75 fun _ => .done) <| .onFailure ⟨0⟩ (fun _ => .done) <|
      .run 1.75 fun _ => .done

def bursting : Machine Unit := ⟨World.start ⟨true, none⟩ (), [], .code burst⟩

/-- Both hooks have been set, and the client is about to fire for the first time. -/
def poised : Machine Unit := run 7 bursting

theorem life_poised :
    Life (idle (World.start ⟨true, none⟩ ())) ([idle (World.start ⟨true, none⟩ ())] ++ trail 7 bursting)
      poised :=
  (Life.refl.next (.call burst rfl)).trans (life_run 7 _)

/-- A client whose hooks are both set can count more ends of its body than hooks have been called. -/
theorem burst_unnoticed :
    ¬ ∀ (config : SimulationConfig) (early past : List (Machine Unit)) (a b : Machine Unit)
      (id : ClientId) (client now : Client), Life (idle (World.start config ())) early a →
        Life a past b → a.world.store.client? id = some client →
          (∀ outcome, (a.slot id outcome).hook?.isSome) → b.world.store.client? id = some now →
            ∀ outcome, now.ended outcome =
              client.ended outcome + past.countP (invokes id outcome) := by
  intro hall
  have hset : ∀ outcome, (poised.slot ⟨0⟩ outcome).hook?.isSome := by
    intro outcome
    cases outcome <;> with_unfolding_all rfl
  have hone : (trail 20 poised).countP (invokes ⟨0⟩ (.success .unit)) = 1 := by decide +kernel
  have hnotice := hall _ _ _ _ _ ⟨0⟩ ⟨"load", 1.0, .think 0.5, 0, 0, 0⟩
    ⟨"load", 1.0, .think 0.5, 2, 2, 0⟩ life_poised (life_run 20 poised) (by with_unfolding_all rfl)
    hset (by with_unfolding_all rfl) (.success .unit)
  rw [hone] at hnotice
  cases hnotice

theorem burst_hook_called :
    (∃ now, (run 20 poised).world.store.client? ⟨0⟩ = some now ∧ now.successes = 2) ∧
    (trail 20 poised).countP (invokes ⟨0⟩ (.success .unit)) = 1 ∧
    ∃ before x after, trail 20 poised = before ++ x :: after ∧
      x.endsLike ⟨0⟩ (.success .unit) = true ∧
      ¬ Slot.Ready (moves ⟨0⟩ (.success .unit)
        (([idle (World.start ⟨true, none⟩ ())] ++ trail 7 bursting) ++ before)) := by
  have hends : (trail 20 poised).countP (endsLike ⟨0⟩ (.success .unit)) = 2 := by decide +kernel
  have hone : (trail 20 poised).countP (invokes ⟨0⟩ (.success .unit)) = 1 := by decide +kernel
  have hclient : poised.world.store.client? ⟨0⟩ = some ⟨"load", 1.0, .think 0.5, 0, 0, 0⟩ := by
    with_unfolding_all rfl
  rcases life_poised.hook_called_iff (life_run 20 poised) hclient (.success .unit) with
    ⟨-, ⟨now, hnow, hcount⟩, -, hiff⟩
  rw [hends] at hcount
  rw [hone, hends] at hiff
  have hmissed := mt hiff.2 (by decide)
  exact ⟨⟨now, hnow, hcount⟩, hone, by simpa only [not_forall, exists_prop] using hmissed⟩

end Machine
end Callflow

import Callflow.Proofs.Machine.Together

/-!
# What becomes of an evaluation

The host begins an evaluation, and then many transitions follow, of this evaluation and of others.
The `tale` of the evaluation tells those that act for it: a transition acts for it if it hands on an
outcome that the evaluation has got, or takes one of its events; and all requests and events that it
makes belong to the evaluation as well. So the tale tells when each request was issued on behalf of
the evaluation, got a reply and was left stale, and when its continuation was resumed.

Two evaluations of the same activity, in different simulations, stay the `Same` while others act
(`Same.idle`), and when both act (`Same.act`).
-/

namespace Callflow

open Family (Paired)
open World (Alike)
open Machine (Next Taking Turn Together)

variable {σ : Type}

instance (focus : Focus σ) : Decidable focus.Stops :=
  match focus with
  | .code _ => isFalse id
  | .resume _ _ => isFalse id
  | .back (.ok _) => isFalse id
  | .back (.error _) => isTrue trivial
  | .crash _ => isTrue trivial

/-! ## Tales -/

/-- Something that happens to an evaluation. Its requests are told by their places. -/
inductive Notice where
  -- A request is issued.
  | issued (request : Request)
  -- A pending request gets a reply.
  | settled (place : Nat) (failure : Option Failure)
  -- A settled request gets a further reply.
  | stale (place : Nat) (failure : Option Failure)
  -- The continuation of the evaluation is resumed.
  | resumed (outcome : Outcome)

/-- A passage of a tale: when something happens to the evaluation. -/
structure Passage where
  time : Time
  notice : Notice

/-- What has become of an evaluation after some transitions. -/
structure Tale (σ : Type) where
  family : Family σ
  -- The evaluation has got an outcome, or has just begun, and goes on in the next transition.
  awake : Bool
  -- The evaluation has stopped for good.
  failed : Bool
  passages : List Passage

namespace Family

/-- What a reply is to an evaluation. -/
def notice (F : Family σ) (a : Machine.Answer σ) : Notice :=
  if (a.world.request? a.request).any Request.isPending then .settled (F.place a.request) a.failure
  else .stale (F.place a.request) a.failure

/-- The reply that a transition makes to a request of the family. -/
def reply? (F : Family σ) (b : Machine σ) : Option Notice :=
  (b.answer?.filter fun a => a.request ∈ F.requests).map F.notice

/-- The requests that are issued between two worlds. -/
def issues (F : Family σ) (w v : World σ) : List Notice :=
  ((F.grow w v).requests.drop F.requests.length).filterMap fun id =>
    (v.request? id).map fun r => .issued { r with id := ⟨(F.grow w v).place id⟩ }

end Family

/-- The outcome that the next transition hands to host code. -/
def Machine.resumed? (b : Machine σ) : Option Notice :=
  match b.focus with
  | .resume (.host _) outcome => some (.resumed outcome)
  | _ => none

namespace Tale

/-- Whether a transition acts for the evaluation. -/
def acts (T : Tale σ) (b : Machine σ) : Bool := T.awake || b.taken?.any T.family.owns

/-- What a transition is to the evaluation. -/
def noticed (T : Tale σ) (b c : Machine σ) : List Notice :=
  (T.family.reply? b).toList ++
    if T.acts b then b.resumed?.toList ++ T.family.issues b.world c.world else []

/-- What a transition adds to the tale. -/
def follow (b c : Machine σ) (T : Tale σ) : Tale σ where
  family := if T.acts b then T.family.grow b.world c.world else T.family
  awake := if T.acts b then c.focus.handed?.isSome else T.awake
  failed := T.failed || (T.acts b && decide c.focus.Stops)
  passages := T.passages ++ (T.noticed b c).map fun notice => ⟨b.moment, notice⟩

/-- The evaluation begins with the next transition. -/
def start (code : Outcome → Script σ) : Tale σ := ⟨⟨code, [], []⟩, true, false, []⟩

end Tale

/-- The tale of an evaluation whose outcome some host code gets, from the machine that begins it on,
if these machines have moved on since. -/
def tale (code : Outcome → Script σ) (past : List (Machine σ)) (n : Machine σ) : Tale σ :=
  (past.zip (past.tail ++ [n])).foldl (fun T move => T.follow move.1 move.2) (.start code)

theorem tale_concat (code : Outcome → Script σ) (past : List (Machine σ)) (b c : Machine σ) :
    tale code (past ++ [b]) c = (tale code past b).follow b c := by
  rw [tale, zip_tail_concat, List.foldl_append]
  rfl

/-! ## The same tale -/

/-- An evaluation goes on in the same way. -/
inductive Focus.Like (F F' : Family σ) : Focus σ → Focus σ → Prop where
  | resume {k k' : Continuation σ} (outcome : Outcome) : k.Like F F' k' →
      Like F F' (.resume k outcome) (.resume k' outcome)
  | evaluate {activity : Activity} (caller : Caller)
      (next next' : Except SimulationError Unit → Script σ) : activity.Free →
        Like F F' (.code (.evaluate activity caller F.code next))
          (.code (.evaluate activity caller F'.code next'))

/-- Two evaluations have come equally far. -/
structure Same (menu : Menu) (T T' : Tale σ) (b b' : Machine σ) : Prop where
  alike : Alike menu T.family T'.family b.world b'.world
  apart : T.family.Apart T.awake b
  apart' : T'.family.Apart T'.awake b'
  awake : T'.awake = T.awake
  passages : T'.passages = T.passages
  focus : T.awake = true →
    b.focus.Like T.family T'.family b'.focus ∧ b'.world.now = b.world.now

variable {menu : Menu} {T T' : Tale σ} {b c b' c' : Machine σ}

theorem Focus.Like.symm {F F' : Family σ} {focus focus' : Focus σ} (h : focus.Like F F' focus') :
    focus'.Like F' F focus := by
  cases h with
  | resume outcome hk => exact .resume outcome hk.symm
  | evaluate caller next next' hfree => exact .evaluate caller next' next hfree

theorem Same.symm (h : Same menu T T' b b') : Same menu T' T b' b where
  alike := h.alike.symm
  apart := h.apart'
  apart' := h.apart
  awake := h.awake.symm
  passages := h.passages.symm
  focus := by
    intro hawake
    rcases h.focus (h.awake ▸ hawake) with ⟨hlike, hnow⟩
    exact ⟨hlike.symm, hnow.symm⟩

/-! ## Other transitions -/

theorem Tale.idle_of_not_acts (hacts : T.acts b = false) (hhost : b.handles? = none) :
    T.awake = false ∧ T.family.Idle b := by
  rw [Tale.acts, Bool.or_eq_false_iff] at hacts
  refine ⟨hacts.1, hhost, ?_⟩
  intro e he
  have hnone := hacts.2
  rw [he] at hnone
  exact hnone

/-- A transition that does not act for an evaluation adds nothing to its tale. -/
theorem Tale.follow_of_idle (hacts : T.acts b = false) (hapart : T.family.Apart false b)
    (hidle : T.family.Idle b) (c : Machine σ) : T.follow b c = T := by
  have hreply : T.family.reply? b = none := by
    rw [Family.reply?, Option.map_eq_none_iff, Option.filter_eq_none_iff]
    intro a ha hmem
    have hnone := hapart.unanswered hidle (of_decide_eq_true hmem)
    rw [Machine.answerTo?, ha] at hnone
    simp at hnone
  rcases T with ⟨family, awake, failed, passages⟩
  dsimp only at hreply
  simp [Tale.follow, Tale.noticed, hacts, hreply]

/-- The requests of the family have been made. -/
theorem Same.made (h : Same menu T T' b b') {id : RequestId} (hid : id ∈ T.family.requests) :
    (b.world.request? id).isSome := by
  rcases List.mem_iff_getElem.1 hid with ⟨i, hi, rfl⟩
  rcases h.alike.requests _ _ ((Family.forall₂_paired h.alike.length).get hi (h.alike.length ▸ hi))
    with ⟨r, r', hr, -⟩
  exact Option.isSome_iff_exists.2 ⟨r, hr⟩

/-- While others act, an evaluation stays where it is. -/
theorem Same.idle (h : Same menu T T' b b') (hn : Next b c) (hacts : T.acts b = false)
    (hhost : b.handles? = none) (hb : b.world.Sound) (hc : c.world.Sound)
    (hoffers : c.world.Offers menu) : Same menu (T.follow b c) T' c b' := by
  rcases Tale.idle_of_not_acts hacts hhost with ⟨hasleep, hidle⟩
  have hapart := h.apart
  rw [hasleep] at hapart
  have hlater := hapart.idle hn hidle
  have hlives : T.family.Lives menu c.world :=
    ⟨hc.agenda, hc.waiting.paired, hoffers, hlater.known, hlater.booked, h.alike.left.nodup⟩
  rw [Tale.follow_of_idle hacts hapart hidle]
  refine ⟨h.alike.kept hlives (hapart.kept hn hb hidle fun _ => h.made), ?_, h.apart', h.awake,
    h.passages, ?_⟩
  · rw [hasleep]
    exact hlater
  · rw [hasleep]
    rintro ⟨⟩

/-! ## Transitions of the evaluation -/

/-- The same requests are issued. -/
theorem issues_eq {F F' : Family σ} {w w' v v' : World σ} (h : World.Agrees menu F F' w w' v v')
    (hlength : F.requests.length = F'.requests.length) : F'.issues w' v' = F.issues w v := by
  have hpairs := List.forall₂_drop F.requests.length (Family.forall₂_paired h.alike.length)
  rw [Family.issues, Family.issues, ← hlength]
  generalize (F.grow w v).requests.drop F.requests.length = ids at hpairs ⊢
  generalize (F'.grow w' v').requests.drop F.requests.length = ids' at hpairs ⊢
  induction hpairs with
  | nil => rfl
  | cons hid _ ih =>
    rcases h.alike.requests _ _ hid with ⟨r, r', hr, hr', hlike⟩
    have hplace := hid.place h.alike.left.nodup h.alike.right.nodup
    rw [Request.Like] at hlike
    rw [List.filterMap_cons_some (by rw [hr']; rfl), List.filterMap_cons_some (by rw [hr]; rfl), ih,
      hplace, hlike]

/-- What is done for an evaluation in two transitions is the same. -/
structure Same.Acts (menu : Menu) (T T' : Tale σ) (b b' c c' : Machine σ) : Prop where
  alike : Alike menu (T.family.grow b.world c.world) (T'.family.grow b'.world c'.world) c.world
    c'.world
  now : c'.world.now = c.world.now
  focus : c.focus.Meets (T.family.grow b.world c.world) (T'.family.grow b'.world c'.world) c'.focus
  issues : T'.family.issues b'.world c'.world = T.family.issues b.world c.world
  moment : b'.moment = b.moment
  resumed : b'.resumed? = b.resumed?
  reply : T'.family.reply? b' = T.family.reply? b

/-- Transitions that do the same, from worlds with the same numbers on. -/
theorem Same.Acts.of_together {u u' : World σ}
    (h : Together menu T.family T'.family u u' c c') (hnow : u'.now = u.now)
    (hlength : T.family.requests.length = T'.family.requests.length)
    (hgrow : T.family.grow u c.world = T.family.grow b.world c.world)
    (hgrow' : T'.family.grow u' c'.world = T'.family.grow b'.world c'.world)
    (hmoment : b'.moment = b.moment) (hresumed : b'.resumed? = b.resumed?)
    (hreply : T'.family.reply? b' = T.family.reply? b) : Same.Acts menu T T' b b' c c' := by
  have hissues := issues_eq h.agrees hlength
  have halike := h.agrees.alike
  have hfocus := h.focus
  rw [hgrow, hgrow'] at halike hfocus
  rw [Family.issues, Family.issues, hgrow, hgrow'] at hissues
  exact ⟨halike, (h.agrees.now'.trans hnow).trans h.agrees.now.symm, hfocus, hissues, hmoment,
    hresumed, hreply⟩

theorem reply?_eq {F F' : Family σ} {v v' : World σ} (h : Alike menu F F' v v') {id id' : RequestId}
    (hid : Paired F F' id id') {failure : Option Failure} {stack stack' : List (Activation σ)}
    (hb : b.answer? = some ⟨v, stack, id, failure⟩)
    (hb' : b'.answer? = some ⟨v', stack', id', failure⟩) : F'.reply? b' = F.reply? b := by
  rcases h.requests _ _ hid with ⟨r, r', hr, hr', hlike⟩
  rw [Family.reply?, Family.reply?, hb, hb', Option.filter_some, Option.filter_some,
    if_pos (decide_eq_true hid.mem.1), if_pos (decide_eq_true hid.mem.2)]
  simp only [Option.map_some, Family.notice, hr, hr', Option.any_some, hlike.isPending,
    hid.place h.left.nodup h.right.nodup]

theorem reply?_eq_none {F : Family σ} (hb : b.answer? = none) : F.reply? b = none := by
  rw [Family.reply?, hb]
  rfl

/-- The evaluation goes on with an outcome. -/
theorem Same.Acts.resume (h : Alike menu T.family T'.family b.world b'.world)
    (hnow : b'.world.now = b.world.now) {k k' : Continuation σ} {outcome : Outcome}
    (hk : k.Like T.family T'.family k') (hb : b.focus = .resume k outcome)
    (hb' : b'.focus = .resume k' outcome) (hn : Next b c) (hn' : Next b' c')
    (hok : ¬ c.focus.Stops) (hok' : ¬ c'.focus.Stops) : Same.Acts menu T T' b b' c c' := by
  have hc := hn.step_of_focus hb
  have hc' := hn'.step_of_focus hb'
  rw [hc] at hok
  rw [hc'] at hok'
  have hdone := Together.resume h hnow hk outcome hok hok'
  rw [← hc, ← hc'] at hdone
  have htaken : b.taken? = none := by simp [Machine.taken?, Machine.turn?, hb]
  have htaken' : b'.taken? = none := by simp [Machine.taken?, Machine.turn?, hb']
  refine .of_together hdone hnow h.length rfl rfl ?_ ?_ ?_
  · rw [Machine.moment_of_not_taken htaken, Machine.moment_of_not_taken htaken', hnow]
  · rw [Machine.resumed?, Machine.resumed?, hb, hb']
    cases hk <;> rfl
  · rcases b with ⟨w, stack, focus⟩
    rcases b' with ⟨w', stack', focus'⟩
    cases hb
    cases hb'
    cases hk with
    | reply hid => cases outcome <;> exact reply?_eq h hid rfl rfl
    | _ => exact (reply?_eq_none rfl).trans (reply?_eq_none rfl).symm

/-- The evaluation begins. -/
theorem Same.Acts.evaluate (h : Alike menu T.family T'.family b.world b'.world)
    (hnow : b'.world.now = b.world.now) {activity : Activity} (hfree : activity.Free)
    {caller : Caller} {next next' : Except SimulationError Unit → Script σ}
    (hb : b.focus = .code (.evaluate activity caller T.family.code next))
    (hb' : b'.focus = .code (.evaluate activity caller T'.family.code next')) (hn : Next b c)
    (hn' : Next b' c') (hok : ¬ c.focus.Stops) (hok' : ¬ c'.focus.Stops) :
    Same.Acts menu T T' b b' c c' := by
  rcases b with ⟨w, stack, focus⟩
  rcases b' with ⟨w', stack', focus'⟩
  cases hb
  cases hb'
  have hc := hn.eq_of_step rfl
  have hc' := hn'.eq_of_step rfl
  subst hc
  subst hc'
  refine .of_together (Together.evaluate h hnow hfree rfl .host hok hok') hnow
    h.length rfl rfl ?_ rfl ?_
  · rw [Machine.moment_of_not_taken rfl, Machine.moment_of_not_taken rfl]
    exact hnow
  · exact (reply?_eq_none rfl).trans (reply?_eq_none rfl).symm

/-- The reply that an event makes, if it makes one. -/
theorem Same.reply_turn {F F' : Family σ} {t t' : Turn σ} (h : Alike menu F F' t.world t'.world)
    (hwork : t.event.work.Like F F' t'.event.work) (hb : b.answer? = t.answer?)
    (hb' : b'.answer? = t'.answer?) : F'.reply? b' = F.reply? b := by
  rcases t with ⟨⟨time, seq, kind, work⟩, w, stack⟩
  rcases t' with ⟨⟨time', seq', kind', work'⟩, w', stack'⟩
  cases hwork with
  | @expire id id' deadline hid =>
    rcases h.requests id id' hid with ⟨r, r', hr, hr', hlike⟩
    dsimp only at hr hr'
    cases hp : r.isPending with
    | true =>
      have hanswer : b.answer? = some ⟨w, stack, id, some (.timedOut deadline)⟩ := by
        simp [hb, Turn.answer?, hr, hp]
      have hanswer' : b'.answer? = some ⟨w', stack', id', some (.timedOut deadline)⟩ := by
        simp [hb', Turn.answer?, hr', hlike.isPending, hp]
      exact reply?_eq h hid hanswer hanswer'
    | false =>
      refine (reply?_eq_none ?_).trans (reply?_eq_none ?_).symm
      · rw [hb']
        simp [Turn.answer?, hr', hlike.isPending, hp]
      · rw [hb]
        simp [Turn.answer?, hr, hp]
  | _ => exact (reply?_eq_none hb').trans (reply?_eq_none hb).symm

/-- An event of the evaluation is taken. -/
theorem Same.Acts.turn (h : Alike menu T.family T'.family b.world b'.world) (hmenu : menu.Free)
    {t t' : Turn σ} (ht : b.turn? = some t) (ht' : b'.turn? = some t')
    (hown : T.family.owns t.event = true) (hown' : T'.family.owns t'.event = true) (hn : Next b c)
    (hn' : Next b' c') (hok : ¬ c.focus.Stops) (hok' : ¬ c'.focus.Stops) :
    Same.Acts menu T T' b b' c c' := by
  rcases Machine.turn?_spec ht with ⟨htaking, hstep⟩
  rcases Machine.turn?_spec ht' with ⟨htaking', hstep'⟩
  have hc := hn.eq_of_step hstep
  have hc' := hn'.eq_of_step hstep'
  rw [hc] at hok
  rw [hc'] at hok'
  rcases htaking.take with ⟨horizon, agenda, htake, hworld⟩
  rcases htaking'.take with ⟨horizon', agenda', htake', hworld'⟩
  rcases h.enter htake htake' hown hown' with ⟨hlike, hentered⟩
  have hnow : t'.world.now = t.world.now := by
    rw [htaking.now, htaking'.now, hlike.time]
  rw [← hworld, ← hworld'] at hentered
  have hdone := Together.dispatch hentered hmenu hnow hlike.work hok hok'
  rw [← hc, ← hc'] at hdone
  refine .of_together hdone hnow h.length ?_ ?_ ?_ ?_ ?_
  · rw [hworld, Family.grow_enter _ htake]
  · rw [hworld', Family.grow_enter _ htake']
  · rw [← htaking.moment, ← htaking'.moment, hnow]
  · rw [Machine.resumed?, Machine.resumed?, htaking.focus, htaking'.focus]
  · exact Same.reply_turn hentered hlike.work htaking.answer htaking'.answer

/-- In its turn, an evaluation goes on where it is awake, and otherwise takes one of its events. -/
theorem Same.Acts.of_same (h : Same menu T T' b b') (hmenu : menu.Free) (hn : Next b c)
    (hn' : Next b' c') (hacts : T.acts b = true) (hacts' : T'.acts b' = true)
    (hok : ¬ c.focus.Stops) (hok' : ¬ c'.focus.Stops) : Same.Acts menu T T' b b' c c' := by
  cases hawake : T.awake with
  | true =>
    rcases h.focus hawake with ⟨hlike, hnow⟩
    generalize hfocus : b.focus = focus at hlike
    generalize hfocus' : b'.focus = focus' at hlike
    cases hlike with
    | resume outcome hk => exact .resume h.alike hnow hk hfocus hfocus' hn hn' hok hok'
    | evaluate caller next next' hfree =>
      exact .evaluate h.alike hnow hfree hfocus hfocus' hn hn' hok hok'
  | false =>
    have hawake' := h.awake.trans hawake
    rw [Tale.acts, hawake, Bool.false_or, Machine.taken?, Option.any_map] at hacts
    rw [Tale.acts, hawake', Bool.false_or, Machine.taken?, Option.any_map] at hacts'
    rcases (Option.any_eq_true _ _).1 hacts with ⟨t, ht, hown⟩
    rcases (Option.any_eq_true _ _).1 hacts' with ⟨t', ht', hown'⟩
    exact .turn h.alike hmenu ht ht' hown hown' hn hn' hok hok'

theorem Tale.not_stops (hacts : T.acts b = true) (hok : (T.follow b c).failed = false) :
    ¬ c.focus.Stops := by
  rw [Tale.follow, Bool.or_eq_false_iff, hacts, Bool.true_and] at hok
  exact of_decide_eq_false hok.2

/-- Where both simulations act for the evaluation, they do the same. -/
theorem Same.act (h : Same menu T T' b b') (hmenu : menu.Free) (hn : Next b c) (hn' : Next b' c')
    (hacts : T.acts b = true) (hacts' : T'.acts b' = true) (hb : b.world.Sound)
    (hc : c.world.Sound) (hb' : b'.world.Sound) (hc' : c'.world.Sound)
    (hok : (T.follow b c).failed = false) (hok' : (T'.follow b' c').failed = false) :
    Same menu (T.follow b c) (T'.follow b' c') c c' := by
  have hdone : Same.Acts menu T T' b b' c c' :=
    .of_same h hmenu hn hn' hacts hacts' (Tale.not_stops hacts hok) (Tale.not_stops hacts' hok')
  have hfamily : (T.follow b c).family = T.family.grow b.world c.world := by
    simp [Tale.follow, hacts]
  have hfamily' : (T'.follow b' c').family = T'.family.grow b'.world c'.world := by
    simp [Tale.follow, hacts']
  have hawake : (T.follow b c).awake = c.focus.handed?.isSome := by simp [Tale.follow, hacts]
  have hawake' : (T'.follow b' c').awake = c'.focus.handed?.isSome := by
    simp [Tale.follow, hacts']
  refine ⟨?_, ?_, ?_, ?_, ?_, ?_⟩
  · rw [hfamily, hfamily']
    exact hdone.alike
  · rw [hfamily, hawake]
    exact h.apart.grow hn hb hc
  · rw [hfamily', hawake']
    exact h.apart'.grow hn' hb' hc'
  · rw [hawake, hawake', hdone.focus.handed]
  · simp only [Tale.follow, Tale.noticed, hacts, hacts', if_true, h.passages, hdone.reply,
      hdone.resumed, hdone.issues, hdone.moment]
  · rw [hawake, hfamily, hfamily']
    intro hsome
    refine ⟨?_, hdone.now⟩
    have hfocus := hdone.focus
    generalize c.focus = focus at hfocus hsome
    generalize c'.focus = focus' at hfocus
    cases hfocus with
    | resume outcome hk => exact .resume outcome hk
    | asleep hnone _ =>
      rw [hnone] at hsome
      cases hsome

end Callflow

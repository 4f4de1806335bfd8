import Callflow.Proofs.Machine.Clock
import Callflow.Proofs.Machine.Menu
import Callflow.Proofs.Machine.Tale

/-!
# Evaluations do not disturb each other

The same activity may be evaluated in two simulations, alone or among any other evaluations and
clients. While the programs can call the same services in both, and the evaluation does not stop with
an error, it does the same in both: at every moment, one of the two tales is the beginning of the
other; and what has happened up to a horizon is the same when both simulations have run up to there
(`Evaluating.independent`).

Of two such lives, one is `Behind` the other: it is as far as the other one was at some moment. This
stays so in every transition, as one that acts for the evaluation is matched by the next one that
does so in the other life (`Evaluating.catch_up`).
-/

namespace Callflow

open Machine (Life Next Returning)

variable {σ : Type}

/-! ## Tales of longer lives -/

/-- A longer life has a longer tale. -/
theorem tale_append {x n : Machine σ} {rest : List (Machine σ)} (h : Life x rest n)
    (code : Outcome → Script σ) (past : List (Machine σ)) :
    (∃ more, (tale code (past ++ rest) n).passages = (tale code past x).passages ++ more ∧
      ∀ passage ∈ more, ∃ y ∈ rest, passage.time = y.moment) ∧
    ((tale code past x).failed = true → (tale code (past ++ rest) n).failed = true) := by
  induction h with
  | refl =>
    rw [List.append_nil]
    exact ⟨⟨[], by simp, by simp⟩, id⟩
  | @next rest b c _ _ ih =>
    rcases ih with ⟨⟨more, hpassages, htimes⟩, hfailed⟩
    rw [← List.append_assoc, tale_concat]
    let latest := (tale code (past ++ rest) b).noticed b c
    refine ⟨⟨more ++ latest.map fun notice => ⟨b.moment, notice⟩, ?_, ?_⟩, ?_⟩
    · rw [Tale.follow, hpassages, List.append_assoc]
    · intro passage hpassage
      rcases List.mem_append.1 hpassage with hpassage | hpassage
      · rcases htimes passage hpassage with ⟨y, hy, htime⟩
        exact ⟨y, List.mem_append_left _ hy, htime⟩
      · rcases List.mem_map.1 hpassage with ⟨notice, -, rfl⟩
        exact ⟨b, by simp, rfl⟩
    · intro h
      rw [Tale.follow, hfailed h]
      rfl

theorem tale_code (code : Outcome → Script σ) (past : List (Machine σ)) (n : Machine σ) :
    (tale code past n).family.code = code := by
  have hfollow (moves : List (Machine σ × Machine σ)) (T : Tale σ) :
      (moves.foldl (fun T move => T.follow move.1 move.2) T).family.code = T.family.code := by
    induction moves generalizing T with
    | nil => rfl
    | cons move rest ih =>
      rw [List.foldl_cons, ih, Tale.follow]
      dsimp only
      split <;> rfl
  exact hfollow _ _

/-! ## Simulations that evaluate an activity -/

/-- A simulation in whose life the host evaluates an activity, in the transition of `m`, with code
that gets the outcome; and in which the machines `past` have moved on since, up to `n`. -/
structure Evaluating (config : SimulationConfig) (memory : σ) (menu : Menu) (activity : Activity)
    (caller : Caller) (code : Outcome → Script σ) (early : List (Machine σ)) (m : Machine σ)
    (past : List (Machine σ)) (n : Machine σ) : Prop where
  before : Life (Machine.idle (World.start config memory)) early m
  focus : ∃ next, m.focus = .code (.evaluate activity caller code next)
  after : Life m past n
  -- Requests are only issued and served by programs.
  host : ∀ x ∈ early ++ past, x.handles? = none
  -- The programs can call the services on the menu, and this does not change.
  offers : m.world.Offers menu
  kept : ∀ x ∈ past, x.defines = false
  -- The evaluation never stops for good.
  accepted : (tale code past n).failed = false

namespace Evaluating

variable {config config' : SimulationConfig} {memory memory' : σ} {menu : Menu}
  {activity : Activity} {caller : Caller} {code code' : Outcome → Script σ}
  {early early' past past' p p' r r' : List (Machine σ)}
  {m m' n n' b c x x' : Machine σ} {T T' : Tale σ}

theorem cut (h : Evaluating config memory menu activity caller code early m (p ++ r) n)
    (hp : Life m p x) (hr : Life x r n) :
    Evaluating config memory menu activity caller code early m p x where
  before := h.before
  focus := h.focus
  after := hp
  host := by
    intro y hy
    refine h.host y ?_
    rw [← List.append_assoc]
    exact List.mem_append_left _ hy
  offers := h.offers
  kept := fun y hy => h.kept y (List.mem_append_left _ hy)
  accepted := by
    cases hfailed : (tale code p x).failed with
    | false => rfl
    | true => rw [← h.accepted, (tale_append hr code p).2 hfailed]

theorem sound (h : Evaluating config memory menu activity caller code early m past n) :
    n.world.Sound :=
  (h.before.trans h.after).sound (Machine.sound_idle config memory)

theorem offered (h : Evaluating config memory menu activity caller code early m past n) :
    n.world.Offers menu :=
  h.after.offers h.offers h.kept

theorem handles (h : Evaluating config memory menu activity caller code early m (p ++ x :: r) n) :
    x.handles? = none :=
  h.host x (by simp)

/-! ## Going on -/

/-- While others act, the evaluation stays where it is. -/
theorem idle (h : Evaluating config memory menu activity caller code early m (p ++ [b]) c)
    (hp : Life m p b) (hn : Next b c) (hsame : Same menu (tale code p b) T b x)
    (hacts : (tale code p b).acts b = false) : Same menu (tale code (p ++ [b]) c) T c x := by
  rw [tale_concat]
  exact hsame.idle hn hacts h.handles (h.cut hp (Life.refl.next hn)).sound h.sound h.offered

/-- Where both act for the evaluation, they do the same. -/
theorem act (h : Evaluating config memory menu activity caller code early m (p ++ [b]) c)
    (h' : Evaluating config' memory' menu activity caller code' early' m' (p' ++ [x]) x')
    (hmenu : menu.Free) (hp : Life m p b) (hn : Next b c) (hp' : Life m' p' x) (hn' : Next x x')
    (hsame : Same menu (tale code p b) (tale code' p' x) b x)
    (hacts : (tale code p b).acts b = true) (hacts' : (tale code' p' x).acts x = true) :
    Same menu (tale code (p ++ [b]) c) (tale code' (p' ++ [x]) x') c x' := by
  have hok := h.accepted
  have hok' := h'.accepted
  rw [tale_concat] at hok hok' ⊢
  rw [tale_concat]
  exact hsame.act hmenu hn hn' hacts hacts' (h.cut hp (Life.refl.next hn)).sound h.sound
    (h'.cut hp' (Life.refl.next hn')).sound h'.sound hok hok'

/-- A transition that acts for the evaluation is matched by the next one that does so in the other
life, if there is one by now. -/
theorem catch_up (h : Evaluating config memory menu activity caller code early m (p ++ [b]) c)
    (h' : Evaluating config' memory' menu activity caller code' early' m' (p' ++ r') n')
    (hmenu : menu.Free) (hp : Life m p b) (hn : Next b c) (hp' : Life m' p' x')
    (hr' : Life x' r' n') (hacts : (tale code p b).acts b = true)
    (hsame : Same menu (tale code p b) (tale code' p' x') b x') :
    (∃ q s y, r' = q ++ s ∧ Life x' q y ∧ Life y s n' ∧
      Same menu (tale code (p ++ [b]) c) (tale code' (p' ++ q) y) c y) ∨
    Same menu (tale code p b) (tale code' (p' ++ r') n') b n' := by
  induction r' generalizing p' x' with
  | nil =>
    right
    rw [List.append_nil, hr'.eq_of_nil]
    exact hsame
  | cons first rest ih =>
    rcases hr'.first with ⟨rfl, y, hy, hrest⟩
    have hone : Life first [first] y := Life.refl.next hy
    have hsplit : p' ++ first :: rest = p' ++ [first] ++ rest := by simp
    rw [hsplit] at h'
    have hthere := h'.cut (hp'.next hy) hrest
    cases hacts' : (tale code' p' first).acts first with
    | true => exact Or.inl ⟨[first], rest, y, rfl, hone, hrest,
        h.act hthere hmenu hp hn hp' hy hsame hacts hacts'⟩
    | false =>
      have hlater := (hthere.idle hp' hy hsame.symm hacts').symm
      rcases ih h' (hp'.next hy) hrest hlater with ⟨q, s, z, rfl, hq, hs, hdone⟩ | hdone
      · rw [List.append_assoc] at hdone
        exact Or.inl ⟨first :: q, s, z, rfl, hone.trans hq, hs, hdone⟩
      · rw [hsplit]
        exact Or.inr hdone

end Evaluating

/-! ## One life behind the other -/

/-- An evaluation has come as far as the other one had at some moment. -/
def Behind (menu : Menu) (code : Outcome → Script σ) (past : List (Machine σ)) (n : Machine σ)
    (code' : Outcome → Script σ) (m' : Machine σ) (past' : List (Machine σ)) (n' : Machine σ) :
    Prop :=
  ∃ p' r' x', past' = p' ++ r' ∧ Life m' p' x' ∧ Life x' r' n' ∧
    Same menu (tale code past n) (tale code' p' x') n x'

namespace Evaluating

variable {config config' : SimulationConfig} {memory memory' : σ} {menu : Menu}
  {activity : Activity} {caller : Caller} {code code' : Outcome → Script σ}
  {early early' past past' p p' r r' : List (Machine σ)}
  {m m' n n' b c x x' : Machine σ} {T T' : Tale σ}

/-- Nothing belongs to an evaluation that has not begun. -/
theorem apart (h : Evaluating config memory menu activity caller code early m past n) :
    (Family.mk code [] []).Apart true m := by
  have hhost : ∀ x ∈ early, x.handles? = none := fun x hx => h.host x (List.mem_append_left _ hx)
  have hbefore := h.before
  suffices hasleep : (Family.mk code [] []).Apart false m from hasleep.awaken
  clear h
  induction hbefore with
  | refl => exact Family.Apart.start config memory code
  | @next early b c hlife hn ih =>
    refine (ih fun x hx => hhost x (List.mem_append_left _ hx)).idle hn ⟨hhost b (by simp), ?_⟩
    intro e _
    simp [Family.owns]

/-- Two evaluations of the same activity that have not begun are the same. -/
theorem same (h : Evaluating config memory menu activity caller code early m [] m)
    (h' : Evaluating config' memory' menu activity caller code' early' m' [] m')
    (hactivity : activity.Free) (hnow : m'.world.now = m.world.now) :
    Same menu (.start code) (.start code') m m' where
  alike := {
    left := ⟨h.sound.agenda, h.sound.waiting.paired, h.offers, h.apart.known, h.apart.booked,
      List.nodup_nil⟩
    right := ⟨h'.sound.agenda, h'.sound.waiting.paired, h'.offers,
      h'.apart.known, h'.apart.booked, List.nodup_nil⟩
    length := rfl
    requests := by
      rintro id id' ⟨⟩
    waiters := by
      rintro id id' ⟨⟩
    events := by
      have hnone (resume : Outcome → Script σ) (w : World σ) :
          (Tale.start resume).family.events w = [] := by
        simp [Family.events, Family.owns, Tale.start]
      rw [hnone, hnone]
      exact .nil }
  apart := h.apart
  apart' := h'.apart
  awake := rfl
  passages := rfl
  focus := by
    intro _
    rcases h.focus with ⟨next, hfocus⟩
    rcases h'.focus with ⟨next', hfocus'⟩
    rw [hfocus, hfocus']
    exact ⟨.evaluate caller next next' hactivity, hnow⟩

/-- An evaluation is the same as itself. -/
theorem self (h : Evaluating config memory menu activity caller code early m past n)
    (hactivity : activity.Free) (hmenu : menu.Free) :
    Same menu (tale code past n) (tale code past n) n n := by
  have hafter := h.after
  induction hafter with
  | refl => exact same h h hactivity rfl
  | @next past b c hp hn ih =>
    have hsame := ih (h.cut hp (Life.refl.next hn))
    cases hacts : (tale code past b).acts b with
    | false => exact h.idle hp hn (h.idle hp hn hsame hacts).symm hacts
    | true => exact h.act h hmenu hp hn hp hn hsame hacts hacts

/-- Of two lives, one is behind the other. -/
theorem behind (h : Evaluating config memory menu activity caller code early m past n)
    (h' : Evaluating config' memory' menu activity caller code' early' m' past' n')
    (hactivity : activity.Free) (hmenu : menu.Free) (hnow : m'.world.now = m.world.now) :
    Behind menu code past n code' m' past' n' ∨ Behind menu code' past' n' code m past n := by
  have hafter := h.after
  induction hafter with
  | refl => exact Or.inl ⟨[], past', m', rfl, .refl, h'.after,
      same h (h'.cut .refl h'.after) hactivity hnow⟩
  | @next past b c hp hn ih =>
    have hone : Life b [b] c := Life.refl.next hn
    rcases ih (h.cut hp hone) with
      ⟨p', r', x', rfl, hp', hr', hsame⟩ | ⟨p, r, x, rfl, hp, hr, hsame⟩
    · cases hacts : (tale code past b).acts b with
      | false => exact Or.inl ⟨p', r', x', rfl, hp', hr', h.idle hp hn hsame hacts⟩
      | true =>
        rcases h.catch_up h' hmenu hp hn hp' hr' hacts hsame with
          ⟨q, s, y, rfl, hq, hs, hdone⟩ | hdone
        · refine Or.inl ⟨p' ++ q, s, y, ?_, hp'.trans hq, hs, hdone⟩
          rw [List.append_assoc]
        · exact Or.inr ⟨past, [b], b, rfl, hp, hone, hdone.symm⟩
    · refine Or.inr ⟨p, r ++ [b], x, ?_, hp, hr.trans hone, hsame⟩
      rw [List.append_assoc]

/-- The continuation that is resumed in the tale is the one that the host has given. -/
theorem own (h : Evaluating config memory menu activity caller code early m (p ++ x :: r) n)
    (hactivity : activity.Free) (hmenu : menu.Free) (hacts : (tale code p x).acts x = true)
    {resume : Outcome → Script σ} {outcome : Outcome}
    (hfocus : x.focus = .resume (.host resume) outcome) : resume = code := by
  have hawake : (tale code p x).awake = true := by
    have htaken : x.taken? = none := by simp [Machine.taken?, Machine.turn?, hfocus]
    simpa [Tale.acts, htaken] using hacts
  rcases h.after.cut with ⟨hp, y, hy, hr⟩
  have hthere := h.cut hp ((Life.refl.next hy).trans hr)
  have hlike := ((hthere.self hactivity hmenu).focus hawake).1
  rw [hfocus] at hlike
  cases hlike with
  | resume _ hk =>
    generalize hcode : Continuation.host resume = k at hk
    cases hk with
    | host =>
      cases hcode
      exact tale_code code p x
    | _ => cases hcode

/-- The tale of a life that is behind another one is the beginning of the other's. -/
theorem of_behind (h : Behind menu code past n code' m' past' n') :
    (tale code past n).passages <+: (tale code' past' n').passages := by
  rcases h with ⟨p', r', x', rfl, -, hr', hsame⟩
  rcases (tale_append hr' code' p').1 with ⟨more, hmore, -⟩
  rw [← hsame.passages, hmore]
  exact List.prefix_append _ _

/-- What happens to an evaluation after its events up to a horizon have been taken, happens after
the horizon. -/
theorem late (h' : Evaluating config' memory' menu activity caller code' early' m' (p' ++ r') n')
    {horizon : Time} (hp' : Life m' p' x') (hr' : Life x' r' n')
    (hnone : ∀ e ∈ n.world.agenda.pending, ¬ e.time ≤ horizon) (hasleep : T.awake = false)
    (hsame : Same menu T (tale code' p' x') n x') :
    ∃ more, (tale code' (p' ++ r') n').passages = T.passages ++ more ∧
      ∀ passage ∈ more, ¬ passage.time ≤ horizon := by
  induction r' generalizing p' x' with
  | nil =>
    refine ⟨[], ?_, by simp⟩
    rw [List.append_nil, List.append_nil, hr'.eq_of_nil]
    exact hsame.passages
  | cons first rest ih =>
    rcases hr'.first with ⟨rfl, y, hy, hrest⟩
    have hsplit : p' ++ first :: rest = p' ++ [first] ++ rest := by simp
    have hsound := (h'.cut hp' hr').sound
    cases hacts : (tale code' p' first).acts first with
    | false =>
      rw [hsplit] at h' ⊢
      have hthere := h'.cut (hp'.next hy) hrest
      exact ih h' (hp'.next hy) hrest (hthere.idle hp' hy hsame.symm hacts).symm
    | true =>
      -- The next event of the evaluation is as late as its partner, which is still to come.
      have hlate : ¬ first.moment ≤ horizon := by
        rw [Tale.acts, hsame.awake, hasleep, Bool.false_or, Option.any_eq_true] at hacts
        rcases hacts with ⟨e, htaken, hown⟩
        have hmem : e ∈ (tale code' p' first).family.events first.world :=
          List.mem_filter.2 ⟨(Machine.taken?_spec htaken).1, hown⟩
        rcases hsame.alike.partner hmem with ⟨d, hd, htime⟩
        have hmoment : first.moment = d.time := by
          rw [Machine.moment, htaken]
          exact htime
        rw [hmoment]
        exact hnone d (List.mem_filter.1 hd).1
      rcases (tale_append hr' code' p').1 with ⟨more, hmore, htimes⟩
      refine ⟨more, by rw [hmore, hsame.passages], ?_⟩
      intro passage hpassage hdue
      rcases htimes passage hpassage with ⟨y, hmem, htime⟩
      rw [htime] at hdue
      rcases List.append_of_mem hmem with ⟨before, after, hparts⟩
      have hlater := hr'.moments hsound y hmem
      rw [hparts] at hr'
      have hread := Machine.isReading_moment (hr'.cut.1.sound hsound)
      have hfirst := Machine.isReading_moment hsound
      exact hlate (hfirst.le_trans ((Time.le_iff hfirst hread).2 hlater) hdue)

/-- Between runs, an evaluation waits for its events. -/
theorem asleep {horizon : Time} {count : Nat} {next : Except SimulationError Nat → Script σ}
    {stack : List (Activation σ)} (hreturning : n.Returning horizon count next stack)
    (hsame : Same menu T T' n x) : T.awake = false := by
  cases hawake : T.awake with
  | false => rfl
  | true =>
    have hlike := (hsame.focus hawake).1
    rw [hreturning.focus] at hlike
    cases hlike

/-- What happens up to the horizon of a run that returns is the same in a life that it is behind. -/
theorem until_horizon (h : Evaluating config memory menu activity caller code early m past n)
    (h' : Evaluating config' memory' menu activity caller code' early' m' past' n')
    (hbudget : config.maxEvents = none) {horizon : Time} {count : Nat}
    {next : Except SimulationError Nat → Script σ} {stack : List (Activation σ)}
    (hreturning : n.Returning horizon count next stack)
    (hbehind : Behind menu code past n code' m' past' n') :
    (tale code' past' n').passages.filter (fun passage => passage.time ≤ horizon) =
      (tale code past n).passages.filter fun passage => passage.time ≤ horizon := by
  rcases hbehind with ⟨p', r', x', rfl, hp', hr', hsame⟩
  have hdue := (h.before.trans h.after).not_due hbudget hreturning
  rcases h'.late hp' hr' hdue (asleep hreturning hsame) hsame with ⟨more, hmore, hlate⟩
  have hnone : more.filter (fun passage => passage.time ≤ horizon) = [] := by
    simpa [List.filter_eq_nil_iff] using hlate
  rw [hmore, List.filter_append, hnone, List.append_nil]

/-- An activity that defines nothing is evaluated in two simulations at the same time, among any
other evaluations and clients, where the programs can call the same services.

* What happens to it in one of them so far is the beginning of what happens to it in the other one:
  its requests are issued, settled and left stale in the same order, at the same times and with the
  same failures, and its continuation is resumed with the same outcome at the same time.
* If there is no budget, all that happens to it up to a horizon has happened when a run up to there
  returns, so it is the same in both.
* The continuation that is resumed is the one that the host has given. -/
theorem independent (h : Evaluating config memory menu activity caller code early m past n)
    (h' : Evaluating config' memory' menu activity caller code' early' m' past' n')
    (hactivity : activity.Free) (hmenu : menu.Free) (hnow : m'.world.now = m.world.now) :
    ((tale code past n).passages <+: (tale code' past' n').passages ∨
      (tale code' past' n').passages <+: (tale code past n).passages) ∧
    (∀ horizon count count' next next' stack stack', config.maxEvents = none →
      config'.maxEvents = none → n.Returning horizon count next stack →
        n'.Returning horizon count' next' stack' →
          (tale code past n).passages.filter (fun passage => passage.time ≤ horizon) =
            (tale code' past' n').passages.filter fun passage => passage.time ≤ horizon) ∧
    ∀ p x r resume outcome, past = p ++ x :: r → (tale code p x).acts x = true →
      x.focus = .resume (.host resume) outcome → resume = code := by
  refine ⟨?_, ?_, ?_⟩
  · exact (h.behind h' hactivity hmenu hnow).imp of_behind of_behind
  · intro horizon count count' next next' stack stack' hbudget hbudget' hreturning hreturning'
    rcases h.behind h' hactivity hmenu hnow with hbehind | hbehind
    · exact (h.until_horizon h' hbudget hreturning hbehind).symm
    · exact h'.until_horizon h hbudget' hreturning' hbehind
  · rintro p x r resume outcome rfl hacts hfocus
    exact h.own hactivity hmenu hacts hfocus

end Evaluating

/-! ## A reply at the deadline -/

namespace Machine

/-- A query whose reply comes when its deadline is over. -/
def tied : Activity := .query "s" "go" (some 1.0)

def serving : Activity := .defineService "s" [.defineOperation "go" (.think 1.0)]

/-- Host code that evaluates the query alone. -/
def alone : Script Unit :=
  .evaluate serving .host (fun _ => .done) fun _ =>
  .evaluate tied .host (fun _ => .done) fun _ =>
  .run 1.0 fun _ => .done

/-- Host code that evaluates the query after another one, and with a client that queries the same
service. -/
def among : Script Unit :=
  .evaluate serving .host (fun _ => .done) fun _ =>
  .evaluate (.defineClient "c" 0.5 (.query "s" "go" none)) .host (fun _ => .done) fun _ =>
  .evaluate tied .host (fun _ => .done) fun _ =>
  .evaluate tied .host (fun _ => .done) fun _ =>
  .run 1.0 fun _ => .done

/-- The machine that begins with some host code. -/
def beginning (script : Script Unit) : Machine Unit :=
  ⟨World.start ⟨true, none⟩ (), [], .code script⟩

def served : Menu := (run 5 (beginning alone)).world.store.menu

theorem evaluating_tied {script : Script Unit} {begun count : Nat}
    {next : Except SimulationError Unit → Script Unit}
    (hfocus : (run begun (beginning script)).focus =
      .code (.evaluate tied .host (fun _ => .done) next))
    (hoffers : (run begun (beginning script)).world.Offers served)
    (hhost : (trail begun (beginning script) ++ trail count (run begun (beginning script))).all
      (fun x => x.handles?.isNone) = true)
    (hkept : (trail count (run begun (beginning script))).all (fun x => !x.defines) = true)
    (haccepted : (tale (fun _ => .done) (trail count (run begun (beginning script)))
      (run count (run begun (beginning script)))).failed = false) :
    Evaluating ⟨true, none⟩ () served tied .host (fun _ => .done)
      ([idle (World.start ⟨true, none⟩ ())] ++ trail begun (beginning script))
      (run begun (beginning script)) (trail count (run begun (beginning script)))
      (run count (run begun (beginning script))) where
  before := (Life.refl.next (.call script rfl)).trans (life_run begun _)
  focus := ⟨next, hfocus⟩
  after := life_run count _
  host := by
    intro x hx
    rw [List.append_assoc] at hx
    rcases List.mem_append.1 hx with hx | hx
    · rw [List.mem_singleton.1 hx]
      rfl
    · exact Option.isNone_iff_eq_none.1 (List.all_eq_true.1 hhost x hx)
  offers := hoffers
  kept := by
    intro x hx
    simpa using List.all_eq_true.1 hkept x hx
  accepted := haccepted

theorem served_free : served.Free := by
  intro directory hdirectory name op hop
  have hmenu : served.operations = [⟨[("go", ⟨"go", "s", .think 1.0⟩)]⟩] := rfl
  rw [hmenu, List.mem_singleton] at hdirectory
  rw [hdirectory, Directory.find?, Directory.findIn] at hop
  split at hop
  · cases hop
    exact .think
  · cases hop

theorem evaluating_alone :
    Evaluating ⟨true, none⟩ () served tied .host (fun _ => .done)
      ([idle (World.start ⟨true, none⟩ ())] ++ trail 5 (beginning alone)) (run 5 (beginning alone))
      (trail 12 (run 5 (beginning alone))) (run 12 (run 5 (beginning alone))) := by
  refine evaluating_tied rfl ⟨?_, rfl⟩ ?_ ?_ ?_
  · refine Store.plain_of_values rfl ?_ ?_
    · intro value hvalue id
      rw [List.mem_singleton.1 hvalue]
      simp
    · intro scope hscope value hvalue
      rw [List.mem_singleton.1 hscope] at hvalue
      cases hvalue
  · decide +kernel
  · decide +kernel
  · decide +kernel

theorem evaluating_among :
    Evaluating ⟨true, none⟩ () served tied .host (fun _ => .done)
      ([idle (World.start ⟨true, none⟩ ())] ++ trail 12 (beginning among))
      (run 12 (beginning among)) (trail 31 (run 12 (beginning among)))
      (run 31 (run 12 (beginning among))) := by
  refine evaluating_tied (by with_unfolding_all rfl) ⟨?_, by with_unfolding_all rfl⟩ ?_ ?_ ?_
  · refine Store.plain_of_values (by with_unfolding_all rfl) ?_ ?_
    · intro value hvalue id
      rcases List.mem_cons.1 hvalue with rfl | hvalue
      · simp
      · rw [List.mem_singleton.1 hvalue]
        simp
    · intro scope hscope value hvalue
      rw [List.mem_singleton.1 hscope] at hvalue
      cases hvalue
  · decide +kernel
  · decide +kernel
  · decide +kernel

/-- The query misses its deadline, and the reply is stale, whatever else there is. -/
theorem tied_independent :
    (tale (fun _ => .done) (trail 12 (run 5 (beginning alone)))
        (run 12 (run 5 (beginning alone)))).passages.filter (fun passage => passage.time ≤ 1.0) =
      (tale (fun _ => .done) (trail 31 (run 12 (beginning among)))
        (run 31 (run 12 (beginning among)))).passages.filter (fun passage => passage.time ≤ 1.0) ∧
    (tale (fun _ => .done) (trail 12 (run 5 (beginning alone)))
        (run 12 (run 5 (beginning alone)))).passages =
      [⟨0.0, .issued (.issue ⟨0⟩ .host "go" 0.0 (some 1.0))⟩,
        ⟨1.0, .settled 0 (some (.timedOut 1.0))⟩, ⟨1.0, .resumed (.failure (.timedOut 1.0))⟩,
        ⟨1.0, .stale 0 none⟩] := by
  have hreturning : (run 12 (run 5 (beginning alone))).Returning 1.0 3 (fun _ => .done) [] :=
    ⟨by with_unfolding_all rfl, by with_unfolding_all rfl, by with_unfolding_all rfl⟩
  have hreturning' : (run 31 (run 12 (beginning among))).Returning 1.0 10 (fun _ => .done) [] :=
    ⟨by with_unfolding_all rfl, by with_unfolding_all rfl, by with_unfolding_all rfl⟩
  have hboth := evaluating_alone.independent evaluating_among .query served_free
    (by with_unfolding_all rfl)
  exact ⟨hboth.2.1 1.0 3 10 _ _ _ _ rfl rfl hreturning hreturning', by with_unfolding_all rfl⟩

end Machine
end Callflow

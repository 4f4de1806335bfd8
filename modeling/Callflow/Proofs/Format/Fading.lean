import Callflow.Machine.Evaluate
import Callflow.Proofs.Format.Text
import Callflow.Proofs.Program.Waits

/-!
# Numbers that are lost in a text

A number that is not finite has no written form. Where it must be there, its text is not read at all
(`required_of_reads`); where it may be missing, it is: the text of a program is always the text of the
program without such timeouts and caps (`toJson_faded`). So a text is read as the program that it was
written for, or not at all, exactly when no timeout and no cap has been lost:
`render_faithful_iff`.
-/

namespace Callflow

/-! ## What is left -/

namespace Json

/-- What is left of a number that may be missing. -/
def faded (x : Option Float) : Option Float := x.filter Decimal.isFinite

theorem ofOption_faded (x : Option Float) :
    ofOption ofFloat (faded x) = ofOption ofFloat x := by
  cases x with
  | none => rfl
  | some y =>
    by_cases hfinite : Decimal.isFinite y = true
    · rw [faded, Option.filter_some_pos hfinite]
    · have hnull : ofFloat y = .null := if_neg hfinite
      rw [faded, Option.filter_some_neg (Bool.not_eq_true _ ▸ hfinite)]
      exact hnull.symm

theorem faded_eq_self {x : Option Float} (h : ∀ y ∈ x, Decimal.isFinite y = true) :
    faded x = x := by
  cases x with
  | none => rfl
  | some y => exact Option.filter_some_pos (h y rfl)

end Json

/-- What is left of a delay. -/
def Delay.faded (d : Delay) : Delay :=
  match d.growth with
  | .constant => d
  | .exponential factor cap => ⟨d.base, .exponential factor (Json.faded cap)⟩

namespace Activity

/-- What is left of a program: its timeouts and caps that are finite, and all the rest. -/
def faded : Activity → Activity
  | .defineService name body => .defineService name (fadedAll body)
  | .defineOperation name body => .defineOperation name (faded body)
  | .defineClient name period body => .defineClient name period (faded body)
  | .trigger target operation => .trigger target operation
  | .query target operation timeout => .query target operation (Json.faded timeout)
  | .sequence steps => .sequence (fadedAll steps)
  | .think duration => .think duration
  | .retry body limit delay => .retry (faded body) limit delay.faded
  | .ignoreError body => .ignoreError (faded body)
  | .fail => .fail
where
  -- What is left of some programs.
  fadedAll : List Activity → List Activity
    | [] => []
    | a :: rest => faded a :: fadedAll rest

/-- Whether a number is left. -/
def Number.kept : Number → Bool
  | .optional x => Decimal.isFinite x
  | _ => true

@[simp]
theorem Number.kept_required (x : Float) : (required x).kept = true := rfl

@[simp]
theorem Number.kept_limit (n : Nat) : (limit n).kept = true := rfl

theorem optionalNumber_faded (x : Option Float) :
    optionalNumber (Json.faded x) = (optionalNumber x).filter Number.kept := by
  cases x with
  | none => rfl
  | some y =>
    cases hfinite : Decimal.isFinite y <;>
      simp [optionalNumber, Json.faded, Number.kept, hfinite, Option.filter_some]

theorem delayNumbers_faded (d : Delay) :
    delayNumbers d.faded = (delayNumbers d).filter Number.kept := by
  rcases d with ⟨base, growth⟩
  cases growth with
  | constant => rfl
  | exponential factor cap => simp [Delay.faded, delayNumbers, optionalNumber_faded, List.filter_cons]

mutual

theorem numbers_faded : ∀ a : Activity, a.faded.numbers = a.numbers.filter Number.kept
  | .defineService _ body => numbersOfAll_faded body
  | .defineOperation _ body => numbers_faded body
  | .defineClient _ _ body => by
    simp [faded, numbers, numbers_faded body, List.filter_cons]
  | .trigger _ _ => rfl
  | .query _ _ timeout => optionalNumber_faded timeout
  | .sequence steps => numbersOfAll_faded steps
  | .think _ => rfl
  | .retry body _ delay => by
    simp [faded, numbers, numbers_faded body, delayNumbers_faded, List.filter_cons]
  | .ignoreError body => numbers_faded body
  | .fail => rfl

theorem numbersOfAll_faded : ∀ as : List Activity,
    numbers.numbersOfAll (faded.fadedAll as) = (numbers.numbersOfAll as).filter Number.kept
  | [] => rfl
  | a :: rest => by
    simp [faded.fadedAll, numbers.numbersOfAll, numbers_faded a, numbersOfAll_faded rest]

end

/-- Nothing else than what is required of a program keeps what is left of it from fitting. -/
theorem fits_faded {a : Activity}
    (hrequired : ∀ x, .required x ∈ a.numbers → Decimal.isFinite x = true)
    (hlimits : ∀ n, .limit n ∈ a.numbers → n < Json.word32) : a.faded.Fits := by
  rw [fits_iff, numbers_faded]
  intro n hn
  rcases List.mem_filter.1 hn with ⟨hmem, hkept⟩
  cases n with
  | required x => exact hrequired x hmem
  | optional x => exact hkept
  | limit n => exact hlimits n hmem

theorem faded_delay_eq_self {d : Delay} (h : ∀ n ∈ delayNumbers d, n.kept = true) :
    d.faded = d := by
  rcases d with ⟨base, growth⟩
  cases growth with
  | constant => rfl
  | exponential factor cap =>
    simp only [delayNumbers, List.forall_mem_cons, forall_optionalNumber] at h
    simp only [Delay.faded, Json.faded_eq_self h.2.2]

mutual

theorem faded_eq_self : ∀ a : Activity, (∀ n ∈ a.numbers, n.kept = true) → a.faded = a
  | .defineService name body, h => congrArg (defineService name) (fadedAll_eq_self body h)
  | .defineOperation name body, h => congrArg (defineOperation name) (faded_eq_self body h)
  | .defineClient name period body, h =>
    congrArg (defineClient name period) (faded_eq_self body (List.forall_mem_cons.1 h).2)
  | .trigger _ _, _ => rfl
  | .query target operation timeout, h =>
    congrArg (query target operation) (Json.faded_eq_self (forall_optionalNumber.1 h))
  | .sequence steps, h => congrArg sequence (fadedAll_eq_self steps h)
  | .think _, _ => rfl
  | .retry body limit delay, h => by
    rw [numbers, List.forall_mem_cons, List.forall_mem_append] at h
    rw [faded, faded_eq_self body h.2.2, faded_delay_eq_self h.2.1]
  | .ignoreError body, h => congrArg ignoreError (faded_eq_self body h)
  | .fail, _ => rfl

theorem fadedAll_eq_self : ∀ as : List Activity,
    (∀ n ∈ numbers.numbersOfAll as, n.kept = true) → faded.fadedAll as = as
  | [], _ => rfl
  | a :: rest, h => by
    rw [numbers.numbersOfAll, List.forall_mem_append] at h
    rw [faded.fadedAll, faded_eq_self a h.1, fadedAll_eq_self rest h.2]

end

/-- A program is left as it is if it has no timeout and no cap that is not finite. -/
theorem faded_eq_self_iff {a : Activity} :
    a.faded = a ↔ ∀ x, .optional x ∈ a.numbers → Decimal.isFinite x = true := by
  constructor
  · intro h x hx
    have hnumbers := numbers_faded a
    rw [h] at hnumbers
    exact List.filter_eq_self.1 hnumbers.symm _ hx
  · intro h
    apply faded_eq_self
    intro n hn
    cases n with
    | required x => rfl
    | optional x => exact h x hn
    | limit n => rfl

/-! ## Writing -/

theorem toJson_faded_delay (d : Delay) : d.faded.toJson = d.toJson := by
  rcases d with ⟨base, growth⟩
  cases growth with
  | constant => rfl
  | exponential factor cap =>
    simp only [Delay.faded, Delay.toJson, Growth.toFields, Json.ofOption_faded]

mutual

/-- A program is written as what is left of it. -/
theorem toJson_faded : ∀ a : Activity, a.faded.toJson = a.toJson
  | .defineService name body => by simp only [faded, toJson, toItems_faded body]
  | .defineOperation name body => by simp only [faded, toJson, toJson_faded body]
  | .defineClient name period body => by simp only [faded, toJson, toJson_faded body]
  | .trigger _ _ => rfl
  | .query _ _ timeout => by simp only [faded, toJson, Json.ofOption_faded]
  | .sequence steps => by simp only [faded, toJson, toItems_faded steps]
  | .think _ => rfl
  | .retry body limit delay => by
    simp only [faded, toJson, toJson_faded body, toJson_faded_delay]
  | .ignoreError body => by simp only [faded, toJson, toJson_faded body]
  | .fail => rfl

theorem toItems_faded : ∀ as : List Activity,
    toJson.toItems (faded.fadedAll as) = toJson.toItems as
  | [] => rfl
  | a :: rest => by
    simp only [faded.fadedAll, toJson.toItems, toJson_faded a, toItems_faded rest]

end

/-! ## Reading -/

theorem isFinite_of_read {x y : Float} (h : (Json.ofFloat x).float? = some y) :
    Decimal.isFinite x = true := by
  by_contra hnot
  have hnull : Json.ofFloat x = .null := if_neg hnot
  rw [hnull] at h
  cases h

/-- What is required of a delay that is read from its document is finite. -/
theorem required_of_read_delay {d e : Delay} (h : Delay.ofJson? d.toJson = some e) (x : Float)
    (hx : .required x ∈ delayNumbers d) : Decimal.isFinite x = true := by
  have hgrowth : ∀ f ∈ d.growth.toFields, f.1 ≠ "value" := by
    rcases d with ⟨base, growth⟩
    cases growth <;> simp [Growth.toFields, Growth.tag]
  simp only [Delay.toJson, Delay.ofJson?, Json.once?_cons_self hgrowth,
    Json.filter_cons_self hgrowth, Option.bind_eq_bind, Option.bind_some, Option.pure_def,
    Option.bind_eq_some_iff, Option.some_inj] at h
  obtain ⟨growth, hread, base, hbase, -⟩ := h
  rcases d with ⟨value, shape⟩
  cases shape with
  | constant =>
    cases List.mem_singleton.1 hx
    exact isFinite_of_read hbase
  | exponential factor cap =>
    have hcontent := (Growth.ofFields?_zip true .exponential
      [.ofFloat factor, .ofOption .ofFloat cap] rfl).symm.trans hread
    simp only [List.map_cons, List.map_nil, Growth.ofContent?, Option.bind_eq_bind,
      Option.bind_eq_some_iff] at hcontent
    obtain ⟨y, hfactor, -⟩ := hcontent
    simp only [delayNumbers, List.mem_cons] at hx
    rcases hx with hx | hx | hx
    · cases hx
      exact isFinite_of_read hbase
    · cases hx
      exact isFinite_of_read hfactor
    · cases cap <;> simp [optionalNumber] at hx

theorem Reads.content {ahead : Bool} (k : ActivityVariant) (vs : List Json)
    (hlength : k.fieldNames.length = vs.length) {b : Activity}
    (h : Reads ahead (.obj ((tag, .str k.word) :: k.fieldNames.zip vs)) b) :
    ofContent? k ((vs.map part).map some) = some b := by
  rcases h with ⟨fields, hfields, hread⟩
  cases hfields
  exact (assemble?_zip ahead k vs hlength).symm.trans hread

theorem exists_fields (a : Activity) : ∃ fields, a.toJson = .obj fields := by
  cases a <;> exact ⟨_, rfl⟩

/-- What stands in a program is read as it is read alone. -/
theorem reads_of_activity {a b : Activity} (h : (part a.toJson).activity = some b) :
    Reads true a.toJson b := by
  rcases exists_fields a with ⟨fields, hfields⟩
  rw [hfields] at h
  exact ⟨fields, hfields, h⟩

theorem reads_of_ofJson? {a b : Activity} (h : ofJson? a.toJson = some b) :
    Reads false a.toJson b := by
  rcases exists_fields a with ⟨fields, hfields⟩
  rw [hfields] at h
  exact ⟨fields, hfields, h⟩

mutual

/-- What is required of a program that is read from its document is finite. -/
theorem required_of_reads : ∀ (a : Activity) {ahead : Bool} {b : Activity},
    Reads ahead a.toJson b → ∀ x, .required x ∈ a.numbers → Decimal.isFinite x = true
  | .defineService name body, ahead, b, h => by
    have hcontent := Reads.content .defineService [.str name, .arr (toJson.toItems body)] rfl h
    simp only [List.map_cons, List.map_nil, ofContent?, value_part, Json.string?,
      Option.bind_eq_bind, Option.bind_some, Option.bind_eq_some_iff, Option.pure_def,
      Option.some_inj] at hcontent
    obtain ⟨bs, hbody, -⟩ := hcontent
    exact required_of_activities body hbody
  | .defineOperation name body, ahead, b, h => by
    have hcontent := Reads.content .defineOperation [.str name, body.toJson] rfl h
    simp only [List.map_cons, List.map_nil, ofContent?, value_part, Json.string?,
      Option.bind_eq_bind, Option.bind_some, Option.bind_eq_some_iff, Option.pure_def,
      Option.some_inj] at hcontent
    obtain ⟨c, hbody, -⟩ := hcontent
    exact required_of_reads body (reads_of_activity hbody)
  | .defineClient name period body, ahead, b, h => by
    have hcontent := Reads.content .defineClient [.str name, .ofFloat period, body.toJson] rfl h
    simp only [List.map_cons, List.map_nil, ofContent?, value_part, Json.string?,
      Option.bind_eq_bind, Option.bind_some, Option.bind_eq_some_iff, Option.pure_def,
      Option.some_inj] at hcontent
    obtain ⟨y, hperiod, c, hbody, -⟩ := hcontent
    intro x hx
    rcases List.mem_cons.1 hx with hx | hx
    · cases hx
      exact isFinite_of_read hperiod
    · exact required_of_reads body (reads_of_activity hbody) x hx
  | .trigger _ _, _, _, _ => fun _ hx => absurd hx List.not_mem_nil
  | .query _ _ timeout, _, _, _ => by
    intro x hx
    cases timeout <;> simp [numbers, optionalNumber] at hx
  | .sequence steps, ahead, b, h => by
    have hcontent := Reads.content .sequence [.arr (toJson.toItems steps)] rfl h
    simp only [List.map_cons, List.map_nil, ofContent?, Option.bind_eq_bind,
      Option.bind_eq_some_iff] at hcontent
    obtain ⟨bs, hsteps, -⟩ := hcontent
    exact required_of_activities steps hsteps
  | .think duration, ahead, b, h => by
    have hcontent := Reads.content .think [.ofFloat duration] rfl h
    simp only [List.map_cons, List.map_nil, ofContent?, value_part, Option.bind_eq_bind,
      Option.bind_eq_some_iff] at hcontent
    obtain ⟨y, hduration, -⟩ := hcontent
    intro x hx
    cases List.mem_singleton.1 hx
    exact isFinite_of_read hduration
  | .retry body limit delay, ahead, b, h => by
    have hcontent := Reads.content .retry [body.toJson, .ofNat limit, delay.toJson] rfl h
    simp only [List.map_cons, List.map_nil, ofContent?, value_part, Option.bind_eq_bind,
      Option.bind_eq_some_iff] at hcontent
    obtain ⟨c, hbody, n, -, e, hdelay, -⟩ := hcontent
    intro x hx
    rcases List.mem_cons.1 hx with hx | hx
    · cases hx
    · rcases List.mem_append.1 hx with hx | hx
      · exact required_of_read_delay hdelay x hx
      · exact required_of_reads body (reads_of_activity hbody) x hx
  | .ignoreError body, ahead, b, h => by
    have hcontent := Reads.content .ignoreError [body.toJson] rfl h
    simp only [List.map_cons, List.map_nil, ofContent?, Option.bind_eq_bind,
      Option.bind_eq_some_iff] at hcontent
    obtain ⟨c, hbody, -⟩ := hcontent
    exact required_of_reads body (reads_of_activity hbody)
  | .fail, _, _, _ => fun _ hx => absurd hx List.not_mem_nil

theorem required_of_activities : ∀ (as : List Activity) {bs : List Activity},
    (part (.arr (toJson.toItems as))).activities = some bs →
      ∀ x, .required x ∈ numbers.numbersOfAll as → Decimal.isFinite x = true
  | [], _, _ => fun _ hx => absurd hx List.not_mem_nil
  | a :: rest, bs, h => by
    have hitems : (part a.toJson :: part.itemParts (toJson.toItems rest)).mapM Part.activity =
        some bs := h
    simp only [List.mapM_cons, Option.bind_eq_bind, Option.bind_eq_some_iff] at hitems
    obtain ⟨b, hfirst, cs, hrest, -⟩ := hitems
    intro x hx
    rcases List.mem_append.1 hx with hx | hx
    · exact required_of_reads a (reads_of_activity hfirst) x hx
    · exact required_of_activities rest hrest x hx

end

/-- The text of a program is read as what is left of it, if all that is required of it is finite and it
is not nested too deep. Otherwise it is not read at all. -/
theorem parse?_render_iff {a b : Activity}
    (hlimits : ∀ n, .limit n ∈ a.numbers → n < Json.word32) :
    parse? a.render = some b ↔
      (∀ x, .required x ∈ a.numbers → Decimal.isFinite x = true) ∧
        a.toJson.height ≤ Json.depthLimit ∧ b = a.faded := by
  have hwritten := written_toJson a hlimits
  have hdocument : parse? a.render = (Option.filter Json.Bounded (some a.toJson)).bind ofJson? := by
    show ((Json.parse? a.toJson.compact).filter Json.Bounded).bind ofJson? = _
    rw [Json.parse?_compact hwritten.sound hwritten.readable]
  have hfaded (hrequired : ∀ x, .required x ∈ a.numbers → Decimal.isFinite x = true) :
      ofJson? a.toJson = some a.faded := by
    rw [← toJson_faded a]
    exact codec.read_write (fits_faded hrequired hlimits)
  rw [hdocument, Option.bind_eq_some_iff]
  constructor
  · rintro ⟨v, hv, hread⟩
    rcases Option.filter_eq_some_iff.1 hv with ⟨hsame, hbounded⟩
    cases hsame
    have hheight : a.toJson.height ≤ Json.depthLimit := by
      have hboth : a.toJson.readable = true ∧ a.toJson.height ≤ Json.depthLimit := by
        simpa [Json.Bounded] using hbounded
      exact hboth.2
    have hrequired := required_of_reads a (reads_of_ofJson? hread)
    rw [hfaded hrequired] at hread
    exact ⟨hrequired, hheight, (Option.some_inj.1 hread).symm⟩
  · rintro ⟨hrequired, hheight, rfl⟩
    have hbounded : Json.Bounded a.toJson = true := by
      rw [Json.Bounded, hwritten.readable, decide_eq_true hheight]
      rfl
    exact ⟨a.toJson, Option.filter_some_pos hbounded, hfaded hrequired⟩

/-- Reading what was written for a program yields the program without the timeouts and the caps that
are not finite, or nothing: so it never yields another program exactly when there are no such timeouts
and caps, or something else keeps the text from being read. -/
theorem render_faithful_iff {a : Activity}
    (hlimits : ∀ n, .limit n ∈ a.numbers → n < Json.word32) :
    (∀ b, parse? a.render = some b ↔
      (∀ x, .required x ∈ a.numbers → Decimal.isFinite x = true) ∧
        a.toJson.height ≤ Json.depthLimit ∧ b = a.faded) ∧
    ((∀ b, parse? a.render = some b → b = a) ↔
      ((∀ x, .required x ∈ a.numbers → Decimal.isFinite x = true) →
        a.toJson.height ≤ Json.depthLimit →
          ∀ x, .optional x ∈ a.numbers → Decimal.isFinite x = true)) := by
  refine ⟨fun b => parse?_render_iff hlimits, ?_⟩
  rw [← faded_eq_self_iff]
  constructor
  · intro hfaithful hrequired hheight
    exact hfaithful a.faded ((parse?_render_iff hlimits).2 ⟨hrequired, hheight, rfl⟩)
  · intro hkept b hb
    rcases (parse?_render_iff hlimits).1 hb with ⟨hrequired, hheight, rfl⟩
    exact hkept hrequired hheight

/-- A query that waits for ever if it is told to, in the body of an operation, after some time. -/
def patientRead (duration : Float) (timeout : Option Float) : Activity :=
  .defineService "db" [.defineOperation "read"
    (.sequence [.think duration, .query "disk" "seek" timeout])]

/-- A timeout that is infinite is lost, unless the time before is not a number: then nothing is
read. -/
theorem patientRead_render_faithful :
    parse? (patientRead 0.5 (some (1.0 / 0.0))).render = some (patientRead 0.5 none) ∧
      (¬ ∀ b, parse? (patientRead 0.5 (some (1.0 / 0.0))).render = some b →
        b = patientRead 0.5 (some (1.0 / 0.0))) ∧
      ∀ b, parse? (patientRead (0.0 / 0.0) (some (1.0 / 0.0))).render = some b →
        b = patientRead (0.0 / 0.0) (some (1.0 / 0.0)) := by
  have hnumbers (duration : Float) : (patientRead duration (some (1.0 / 0.0))).numbers =
      [.required duration, .optional (1.0 / 0.0)] := rfl
  have hlimits (duration : Float) (n : Nat)
      (hn : .limit n ∈ (patientRead duration (some (1.0 / 0.0))).numbers) : n < Json.word32 := by
    simp [hnumbers] at hn
  have hinfinite : ¬ Decimal.isFinite (1.0 / 0.0) = true := by decide +kernel
  have hheight : (patientRead 0.5 (some (1.0 / 0.0))).toJson.height ≤ Json.depthLimit := by
    decide +kernel
  have hrequired : ∀ x, .required x ∈ (patientRead 0.5 (some (1.0 / 0.0))).numbers →
      Decimal.isFinite x = true := by
    intro x hx
    have hhalf : x = 0.5 := by simpa [hnumbers] using hx
    rw [hhalf]
    decide +kernel
  have hfaded : (patientRead 0.5 (some (1.0 / 0.0))).faded = patientRead 0.5 none := by
    have hlost : Json.faded (some (1.0 / 0.0)) = none := by decide +kernel
    simp only [patientRead, faded, faded.fadedAll, hlost]
  have hhalf := render_faithful_iff (hlimits 0.5)
  have hnone := render_faithful_iff (hlimits (0.0 / 0.0))
  refine ⟨(hhalf.1 _).2 ⟨hrequired, hheight, hfaded.symm⟩, ?_, ?_⟩
  · intro hfaithful
    have hfinite := hhalf.2.1 hfaithful hrequired hheight (1.0 / 0.0)
    exact hinfinite (hfinite (by simp [hnumbers]))
  · refine hnone.2.2 fun hfirm _ => ?_
    have hnan : Decimal.isFinite (0.0 / 0.0) = true := hfirm _ (by simp [hnumbers])
    exact absurd hnan (by decide +kernel)

/-! ## A cap that is lost -/

/-- After a first attempt that fails at once, the wait before the second one is scheduled. -/
theorem evaluate_retry_fail {delay : Delay} (hbase : Time.checkDelay delay.base = .ok ())
    (inUse : List Ref) (frame : Frame) (next : Continuation Unit) (w : World Unit) :
    (World.evaluate inUse (.retry .fail 2 delay) frame next w).2 =
      match Time.checkDelay (delay.waitAfter 1) with
      | .error cause => .error (.error (.scheduling cause))
      | .ok () => .ok .suspended := by
  have hstart : RetryState.start 2 delay = .ok ⟨0, 2, delay⟩ := rfl
  have hwaits : (World.evaluate inUse (.retry .fail 2 delay) frame next w) =
      w.suspend (delay.waitAfter 1) .retry (.attempt ⟨1, 2, delay⟩ .fail frame next) := by
    rw [World.evaluate, hbase, hstart]
    rfl
  rw [hwaits, World.suspend, World.schedule, Agenda.schedule]
  cases Time.checkDelay (delay.waitAfter 1) with
  | error cause => rfl
  | ok _ => rfl

/-- Waits that double, with a cap below all of them, so that the first one cannot be waited for. -/
def sinking : Delay := (Delay.exponential 1.0 2.0).capped (-(1.0 / 0.0))

/-- The text of a retry with such a cap is read as the same retry without one. The first breaks off
after its first attempt, the second goes on to the next. -/
theorem sinking_loses_cap :
    parse? (render (.retry .fail 2 sinking)) = some (.retry .fail 2 (.exponential 1.0 2.0)) ∧
      sinking ≠ .exponential 1.0 2.0 ∧
      ∀ (inUse : List Ref) (frame : Frame) (next : Continuation Unit) (w : World Unit),
        (World.evaluate inUse (.retry .fail 2 sinking) frame next w).2 =
          .error (.error (.scheduling (.nonFiniteDelay (-(1.0 / 0.0))))) ∧
        (World.evaluate inUse (.retry .fail 2 (.exponential 1.0 2.0)) frame next w).2 =
          .ok .suspended := by
  have hlimits : ∀ n, .limit n ∈ (retry .fail 2 sinking).numbers → n < Json.word32 := by
    intro n hn
    have htwo : n = 2 := by
      simpa [numbers, delayNumbers, optionalNumber, sinking, Delay.capped, Delay.exponential]
        using hn
    rw [htwo]
    decide
  have hrequired : ∀ x, .required x ∈ (retry .fail 2 sinking).numbers →
      Decimal.isFinite x = true := by
    intro x hx
    have hpair : x = 1.0 ∨ x = 2.0 := by
      simpa [numbers, delayNumbers, optionalNumber, sinking, Delay.capped, Delay.exponential]
        using hx
    rcases hpair with rfl | rfl <;> decide +kernel
  have hfaded : sinking.faded = .exponential 1.0 2.0 := by
    have hlost : Json.faded (some (-(1.0 / 0.0))) = none := by decide +kernel
    simp only [sinking, Delay.capped, Delay.exponential, Delay.faded, hlost]
  have hbase : Time.checkDelay sinking.base = .ok () := rfl
  have hother : Time.checkDelay (Delay.exponential 1.0 2.0).base = .ok () := rfl
  refine ⟨(parse?_render_iff hlimits).2 ⟨hrequired, by decide +kernel, ?_⟩, ?_, ?_⟩
  · rw [faded, faded, hfaded]
  · intro hsame
    cases hsame
  · intro inUse frame next w
    have hsunk : Time.checkDelay (sinking.waitAfter 1) = .error (.nonFiniteDelay (-(1.0 / 0.0))) := by
      have hwait : (1.0 * 1.0 : Float).isNaN = false := by decide +kernel
      have hcap : (-(1.0 / 0.0) : Float).isNaN = false := by decide +kernel
      have hbelow : (-(1.0 / 0.0) : Float) < 1.0 * 1.0 := by decide +kernel
      have hinfinite : Decimal.isFinite (-(1.0 / 0.0)) = false := by decide +kernel
      show Time.checkDelay (Time.capped (1.0 * power 2.0 0) (-(1.0 / 0.0))) = _
      rw [power_zero, Time.capped, hwait, hcap, if_neg Bool.false_ne_true,
        if_neg Bool.false_ne_true, if_pos hbelow, Time.checkDelay, hinfinite]
      rfl
    have hfirst : Time.checkDelay ((Delay.exponential 1.0 2.0).waitAfter 1) = .ok () := by
      show Time.checkDelay (1.0 * power 2.0 0) = _
      rw [power_zero]
      rfl
    rw [evaluate_retry_fail hbase, evaluate_retry_fail hother, hsunk, hfirst]
    exact ⟨rfl, rfl⟩

end Activity
end Callflow

import Callflow.Proofs.Machine.Above
import Callflow.Proofs.Machine.Stock
import Callflow.Proofs.World.Parking
import Callflow.Proofs.World.Pieces

/-!
# There is less and less left to do

Between two events that are taken, a machine only uses up pieces of work: no transition has a new
one, but for the smaller ones that a piece falls into, as long as host code does not enter the
simulation again (`Script.reenters`). A transition that uses up none hands an outcome on to the next
part of a continuation, or returns to a caller. So each transition is a step down in an order that
is well-founded (`step_less`, `wellFounded_less`).
-/

namespace Callflow

variable {σ : Type}

/-- The host code that waits until it is returned to. -/
def Activation.pieces : Activation σ → List (Piece σ)
  | .await next => [.branch next]
  | .shield next => [.branch next]
  | _ => []

namespace Focus

def pieces : Focus σ → List (Piece σ)
  | .code script => [.code script]
  | _ => []

/-- The end of the continuation that an outcome is handed to. -/
def ends : Focus σ → List (Continuation σ)
  | .resume next _ => [next.bottom]
  | _ => []

/-- How far an outcome is from being handed to the end of its continuation. -/
def depth : Focus σ → Nat
  | .resume next _ => next.depth + 1
  | _ => 0

end Focus

namespace Machine

open World (Course)

/-! ## What is left to do -/

/-- The host code that waits for a request, or until it is returned to. -/
def dormant (w : World σ) (stack : List (Activation σ)) : Multiset (Piece σ) :=
  w.hooks + ↑(stack.flatMap Activation.pieces)

/-- The host code that waits, or is executed next. -/
def hosts (m : Machine σ) : Multiset (Piece σ) := ↑m.focus.pieces + dormant m.world m.stack

/-- The ends of all continuations. -/
def ends (m : Machine σ) : Multiset (Continuation σ) := m.world.ends + ↑m.focus.ends

/-- What is left to do before the next event is taken. -/
def pieces (m : Machine σ) : Multiset (Piece σ) := m.ends.map Continuation.piece + m.hosts

/-- What is left to do later. -/
def later (w : World σ) (stack : List (Activation σ)) : Multiset (Piece σ) :=
  w.ends.map Continuation.piece + dormant w stack

/-- Less is left to do: there is less work; or an outcome is nearer to the end of its continuation;
or fewer callers are left. -/
inductive Less (n m : Machine σ) : Prop where
  | pieces : Piece.Shrinks n.pieces m.pieces → Less n m
  | depth : Piece.Fits n.pieces m.pieces → n.focus.depth < m.focus.depth → Less n m
  | callers : Piece.Fits n.pieces m.pieces → n.focus.depth = m.focus.depth →
      n.stack.length < m.stack.length → Less n m

theorem wellFounded_less : WellFounded (Less (σ := σ)) := by
  have hlex := InvImage.wf (fun m : Machine σ => (m.pieces, m.focus.depth, m.stack.length))
    (Piece.wellFounded_shrinks.prod_lex (wellFounded_lt.prod_lex wellFounded_lt))
  refine Subrelation.wf ?_ hlex
  intro n m h
  -- Where the pieces only fit, they are the same or fewer.
  rw [InvImage, Prod.lex_def, Prod.lex_def]
  cases h with
  | pieces hshrinks => exact Or.inl hshrinks
  | depth hfits hdepth =>
    exact hfits.eq_or_shrinks.symm.imp_right fun hsame => ⟨hsame, Or.inl hdepth⟩
  | callers hfits hdepth hlength =>
    exact hfits.eq_or_shrinks.symm.imp_right fun hsame => ⟨hsame, Or.inr ⟨hdepth, hlength⟩⟩

/-! ## Continuations -/

theorem countP_ends (p : Continuation σ → Bool) (m : Machine σ) :
    m.ends.countP (p ·) = m.stock p := by
  have hfocus : m.focus.ends.countP p = m.focus.stock p := by
    cases m.focus <;>
      simp [Focus.ends, Focus.stock, Continuation.stock, List.countP_cons, Bool.toNat,
        Bool.cond_eq_ite]
  simp [ends, stock, World.countP_ends, hfocus]

/-- Host code begins continuations, and copies none. -/
theorem execScript_ends (w : World σ) (stack : List (Activation σ)) (script : Script σ) :
    (execScript w stack script).ends ≤ ↑script.starts + w.ends := by
  refine World.le_of_countP fun p => ?_
  have hstep := step_stock p (m := ⟨w, stack, .code script⟩) (n := execScript w stack script) rfl
  have hstock : stock p ⟨w, stack, .code script⟩ = w.stock p := rfl
  have hbegun : (↑script.starts : Multiset (Continuation σ)).countP (p ·) =
      begun p ⟨w, stack, .code script⟩ := by
    rw [Multiset.coe_countP]
    cases script <;>
      simp [begun, turn?, Script.starts, List.countP_cons, Bool.toNat, Bool.cond_eq_ite]
  have hended : ended p ⟨w, stack, .code script⟩ = 0 := rfl
  rw [Multiset.countP_add, countP_ends, hbegun, World.countP_ends]
  omega

/-- Nothing else begins a continuation, or copies one, unless an event is taken. -/
theorem step_ends {m n : Machine σ} (h : m.step = some n) (hcode : m.focus.isCode = false)
    (hturn : m.turn? = none) : n.ends ≤ m.ends := by
  refine World.le_of_countP fun p => ?_
  have hstep := step_stock p h
  have hbegun : m.begun p = 0 := by
    unfold begun
    split
    · simp_all [Focus.isCode]
    · simp_all [Focus.isCode]
    · simp_all [Focus.isCode]
    · rw [hturn]
      rfl
  rw [countP_ends, countP_ends]
  omega

/-- At its end a continuation is used up. -/
theorem resume_ends (w : World σ) (stack : List (Activation σ)) {next : Continuation σ}
    (outcome : Outcome) (h : next.depth = 0) : (resume w stack next outcome).ends ≤ w.ends := by
  refine World.le_of_countP fun p => ?_
  have hstep : (resume w stack next outcome).stock p + ended p ⟨w, stack, .resume next outcome⟩ ≤
      w.stock p + next.stock p + 0 := step_stock p rfl
  have hended : ended p ⟨w, stack, .resume next outcome⟩ = next.stock p := by
    cases next <;> first | rfl | simp [Continuation.depth] at h
  rw [countP_ends, World.countP_ends]
  omega

/-! ## Host code -/

section

variable (w : World σ) (stack : List (Activation σ))

/-- An evaluation leaves the host code alone that waits. -/
theorem proceed_hosts (next : Continuation σ) (e : Evaluation σ) :
    (proceed stack next e).hosts = dormant e.1 stack := by
  rcases e with ⟨v, result⟩
  unfold proceed
  split
  all_goals
    rename_i heq
    cases heq
    exact zero_add _

theorem dormant_congr {w v : World σ} (h : v.hooks = w.hooks) :
    dormant v stack = dormant w stack := by
  rw [dormant, dormant, h]

theorem evaluate_hosts (activity : Activity) (frame : Frame) (next : Continuation σ) :
    (evaluate w stack activity frame next).hosts = dormant w stack := by
  rw [evaluate, proceed_hosts]
  exact dormant_congr _ (World.evaluate_course ..).hooks

theorem execute_hosts (scope : ScopeId) (op : Operation) (next : Continuation σ) :
    (execute w stack scope op next).hosts = dormant w stack := by
  rw [execute, evaluate_hosts]
  rfl

/-- A service that processes a request calls no host code. -/
theorem process_hosts (request : RequestId) (id : ServiceId) :
    (process w stack request (.service id)).hosts = dormant w stack := by
  unfold process
  split
  · cases ‹_ = _›
  · split
    · split
      · exact zero_add _
      · exact execute_hosts ..
    · exact zero_add _

/-- A reply hands on the outcome, or goes on with the host code that has waited for it. -/
theorem reply_hosts (request : RequestId) (failure : Option Failure) :
    Piece.Fits (reply w stack request failure).hosts (dormant w stack) := by
  have hsettle := World.hooks_settle w request failure
  unfold reply
  generalize w.settle request failure = settled at hsettle
  rcases settled with ⟨v, waiter⟩
  have hwaiting : ↑waiter.hooks + dormant v stack = dormant w stack := by
    rw [dormant, dormant, ← hsettle, add_assoc]
  have hdropped : dormant v stack ≤ dormant w stack := by
    rw [← hwaiting]
    exact Multiset.le_add_left _ _
  have hpart (x : Piece σ) (hx : x ∈ waiter.hooks) : {x} + dormant v stack ≤ dormant w stack := by
    rw [← hwaiting]
    exact add_le_add (Multiset.singleton_le.2 (Multiset.mem_coe.2 hx)) le_rfl
  have hreturn : Piece.Fits (hosts ⟨v, stack, .back (.ok ())⟩) (dormant w stack) :=
    Piece.fits_of_le ((zero_add _).le.trans hdropped)
  have hresume (next : Continuation σ) (outcome : Outcome) :
      Piece.Fits (hosts ⟨v, stack, .resume next outcome⟩) (dormant w stack) :=
    Piece.fits_of_le ((zero_add _).le.trans hdropped)
  cases waiter with
  | nobody => cases failure <;> exact hreturn
  | continuation next => cases failure <;> exact hresume ..
  | host succeeded failed =>
    cases failure with
    | none =>
      cases succeeded with
      | none => cases failed <;> exact hreturn
      | some hook =>
        have hhook : hosts ⟨v, stack, .code hook⟩ ≤ dormant w stack :=
          hpart _ (by simp [Waiter.hooks])
        cases failed <;> exact Piece.fits_of_le hhook
    | some cause =>
      cases failed with
      | none => cases succeeded <;> exact hreturn
      | some hook =>
        have hhook : Piece.Fits (hosts ⟨v, stack, .code (hook cause)⟩) (dormant w stack) :=
          (Piece.shrinks_branch hook cause (dormant v stack)).fits.trans
            (Piece.fits_of_le (hpart _ (by simp [Waiter.hooks])))
        cases succeeded <;> exact hhook

/-- The end of a client's body goes on with a hook, or with nothing. -/
theorem complete_hosts (id : ClientId) (outcome : Outcome) :
    (complete w stack id outcome).hosts = dormant w stack ∨
      ∃ script, (complete w stack id outcome).hosts = {.code script} + dormant w stack := by
  cases outcome with
  | success value =>
    unfold complete
    dsimp only
    split
    · exact Or.inl (zero_add _)
    · exact Or.inr ⟨_, rfl⟩
  | failure cause =>
    unfold complete
    dsimp only
    split
    · exact Or.inl (zero_add _)
    · exact Or.inr ⟨_, rfl⟩

theorem dormant_cons (caller : Activation σ) :
    dormant w (caller :: stack) = ↑caller.pieces + dormant w stack := by
  rw [dormant, dormant, List.flatMap_cons, ← Multiset.coe_add, add_left_comm]

/-- Host code leaves what goes on after its first node, or less, unless it calls other host code. -/
theorem execScript_hosts {script : Script σ} (h : script.reenters = false) :
    Piece.Fits (execScript w stack script).hosts (↑script.rest + dormant w stack) := by
  have hdone (v : World σ) (focus : Focus σ) (hv : v.hooks = w.hooks) (hfocus : focus.pieces = [])
      (t : Multiset (Piece σ)) : Piece.Fits (hosts ⟨v, stack, focus⟩) (t + dormant w stack) := by
    refine Piece.fits_of_le ?_
    rw [hosts, hfocus, dormant_congr stack hv]
    exact add_le_add (Multiset.zero_le _) le_rfl
  have hcode (v : World σ) (next : Script σ) (hv : v.hooks = w.hooks) {other : Script σ}
      (hnext : .code next ∈ other.onward) :
      Piece.Fits (hosts ⟨v, stack, .code next⟩) (↑other.rest + dormant w stack) := by
    refine Piece.fits_of_le ?_
    rw [hosts, dormant_congr stack hv]
    exact add_le_add (Multiset.singleton_le.2 (List.mem_append_right _ hnext)) le_rfl
  have hbranch {α : Type} (v : World σ) (next : α → Script σ) (answer : α) (hv : v.hooks = w.hooks)
      {other : Script σ} (hnext : .branch next ∈ other.onward) :
      Piece.Fits (hosts ⟨v, stack, .code (next answer)⟩) (↑other.rest + dormant w stack) := by
    rw [hosts, dormant_congr stack hv]
    refine (Piece.shrinks_branch next answer _).fits.trans (Piece.fits_of_le ?_)
    exact add_le_add (Multiset.singleton_le.2 (List.mem_append_right _ hnext)) le_rfl
  cases script with
  | done => exact hdone w _ rfl rfl _
  | fail cause => exact hdone w _ rfl rfl _
  | crash cause => exact hdone w _ rfl rfl _
  | shield body next =>
    refine Piece.fits_of_le (le_of_eq ?_)
    show ({.code body} : Multiset (Piece σ)) + dormant w (.shield next :: stack) = _
    rw [dormant_cons, ← add_assoc]
    rfl
  | «recall» next => exact hbranch w next _ rfl (by simp [Script.onward])
  | remember change next => exact hcode _ next rfl (by simp [Script.onward])
  | observe next => exact hbranch w next _ rfl (by simp [Script.onward])
  | readJournal next => exact hbranch w next _ rfl (by simp [Script.onward])
  | record entry next => exact hcode _ next rfl (by simp [Script.onward])
  | schedule delay kind callback next =>
    unfold execScript
    dsimp only
    split
    · exact hbranch _ next _ (World.hooks_schedule ‹_›) (by simp [Script.onward])
    · exact hbranch w next _ rfl (by simp [Script.onward])
  | replyAfter delay request failure next =>
    unfold execScript
    dsimp only
    split
    · exact hbranch _ next _ (World.hooks_schedule ‹_›) (by simp [Script.onward])
    · exact hbranch w next _ rfl (by simp [Script.onward])
  | run horizon next => cases h
  | evaluate activity caller resume next =>
    rw [execScript, evaluate_hosts, dormant_cons]
    exact .refl _
  | execute id op resume next =>
    unfold execScript
    dsimp only
    split
    · exact hbranch w next _ rfl (by simp [Script.onward])
    · rw [execute_hosts, dormant_cons, dormant_cons]
      exact Piece.fits_of_le (zero_add _).le
  | define symbol draft next => exact hbranch _ next _ rfl (by simp [Script.onward])
  | bind symbol name transit handler next => exact hbranch _ next _ rfl (by simp [Script.onward])
  | onSuccess client hook next => exact hcode _ next rfl (by simp [Script.onward])
  | onFailure client hook next => exact hcode _ next rfl (by simp [Script.onward])
  | allocate next =>
    refine hbranch _ next _ ?_ (by simp [Script.onward])
    simp [World.hooks, Waiter.hooks]
  | request caller operation deadline succeeded failed next =>
    have hissued := w.hooks_issue caller operation deadline (.host succeeded failed)
    have hnext := (Piece.shrinks_branch next ⟨w.requests.size⟩
      (↑(Waiter.host succeeded failed).hooks + dormant w stack)).fits
    have hleft : (execScript w stack
        (.request caller operation deadline succeeded failed next)).hosts =
          {.code (next ⟨w.requests.size⟩)} +
            (↑(Waiter.host succeeded failed).hooks + dormant w stack) := by
      rw [dormant, ← add_assoc (Multiset.ofList _), ← hissued]
      rfl
    have hright : ({.branch next} : Multiset (Piece σ)) +
        (↑(Waiter.host succeeded failed).hooks + dormant w stack) =
          ↑(Script.request caller operation deadline succeeded failed next).rest +
            dormant w stack := by
      rw [← add_assoc, add_comm {Piece.branch next}]
      rfl
    rwa [hleft, ← hright]
  | keep label request next => exact hcode _ next rfl (by simp [Script.onward])
  | send request target next =>
    have hsent := World.hooks_send w request target
    unfold execScript
    dsimp only
    split
    · rename_i v hs
      rw [hs] at hsent
      exact hcode v next hsent (by simp [Script.onward])
    · rename_i v cause hs
      rw [hs] at hsent
      exact hdone v _ hsent rfl _
  | process request target next =>
    cases target with
    | endpoint id => cases h
    | service id =>
      rw [execScript, process_hosts, dormant_cons]
      exact .refl _
  | reply request failure next =>
    have hreply := reply_hosts w (.await next :: stack) request failure
    rwa [dormant_cons] at hreply

/-- At its end a continuation falls into smaller pieces, or is done. -/
theorem resume_end_hosts {next : Continuation σ} (outcome : Outcome) (h : next.depth = 0) :
    ∃ t : Multiset (Piece σ), (∀ y ∈ t, y.Below next.bottom.piece) ∧
      Piece.Fits (resume w stack next outcome).hosts (t + dormant w stack) := by
  have hreply (callers : List (Activation σ)) (hsame : dormant w callers = dormant w stack)
      (request : RequestId) (failure : Option Failure) :
      Piece.Fits (reply w callers request failure).hosts (0 + dormant w stack) := by
    rw [zero_add, ← hsame]
    exact reply_hosts ..
  cases next with
  | host code =>
    refine ⟨{.code (code outcome)}, ?_, .refl _⟩
    intro y hy
    rw [Multiset.mem_singleton.1 hy]
    exact .branch code outcome
  | reply request =>
    refine ⟨0, by simp, ?_⟩
    cases outcome with
    | success value => exact hreply (.hold value.refs :: stack) rfl request none
    | failure cause => exact hreply stack rfl request (some cause)
  | complete client =>
    rcases complete_hosts w stack client outcome with hsame | ⟨script, hhook⟩
    · exact ⟨0, by simp, Piece.fits_of_le (hsame.trans (zero_add _).symm).le⟩
    · refine ⟨{.code script}, ?_, Piece.fits_of_le hhook.le⟩
      intro y hy
      rw [Multiset.mem_singleton.1 hy]
      exact .complete script
  | steps rest frame next => cases h
  | service id next => cases h
  | ignore next => cases h
  | retry state body frame next => cases h

theorem proceed_depth (next : Continuation σ) (e : Evaluation σ) :
    (proceed stack next e).focus.depth ≤ next.depth + 1 := by
  unfold proceed
  split
  all_goals first | exact le_rfl | exact Nat.zero_le _

/-- Before its end is reached, an outcome gets nearer to it. -/
theorem resume_part {next : Continuation σ} (outcome : Outcome) (h : next.depth ≠ 0) :
    (resume w stack next outcome).hosts = dormant w stack ∧
      (resume w stack next outcome).focus.depth < next.depth + 1 := by
  cases next with
  | host code => cases h rfl
  | reply request => cases h rfl
  | complete client => cases h rfl
  | steps rest frame next =>
    cases outcome with
    | success value =>
      refine ⟨?_, Nat.lt_succ_of_le (proceed_depth ..)⟩
      rw [resume, proceed_hosts]
      exact dormant_congr _ (World.evaluateSteps_course ..).hooks
    | failure cause => exact ⟨zero_add _, Nat.lt_succ_self _⟩
  | service id next => cases outcome <;> exact ⟨zero_add _, Nat.lt_succ_self _⟩
  | ignore next => cases outcome <;> exact ⟨zero_add _, Nat.lt_succ_self _⟩
  | retry state body frame next =>
    refine ⟨?_, Nat.lt_succ_of_le (proceed_depth ..)⟩
    rw [resume, proceed_hosts]
    exact dormant_congr _ (World.hooks_of_waiters (World.afterAttempt_still ..).waiters)

end

/-! ## Transitions -/

theorem fits_pieces {n : Machine σ} {ends : Multiset (Continuation σ)} {hosts : Multiset (Piece σ)}
    (hends : n.ends ≤ ends) (hhosts : Piece.Fits n.hosts hosts) :
    Piece.Fits n.pieces (ends.map Continuation.piece + hosts) := by
  have hfewer := Piece.fits_of_le (Multiset.map_le_map (f := Continuation.piece) hends)
  have hmore := hhosts.add_right (ends.map Continuation.piece)
  rw [add_comm hosts, add_comm n.hosts] at hmore
  exact (hfewer.add_right n.hosts).trans hmore

/-- What is left to do at once, and later. -/
theorem pieces_eq (w : World σ) (stack : List (Activation σ)) (focus : Focus σ) :
    pieces ⟨w, stack, focus⟩ =
      ↑(focus.ends.map Continuation.piece ++ focus.pieces) + later w stack := by
  rw [pieces, ends, hosts, later, Multiset.map_add, ← Multiset.coe_add, Multiset.map_coe,
    add_comm (Multiset.map Continuation.piece w.ends), add_add_add_comm]

theorem later_cons (w : World σ) (caller : Activation σ) (stack : List (Activation σ)) :
    later w (caller :: stack) = ↑caller.pieces + later w stack := by
  rw [later, later, dormant_cons, add_left_comm]

section

variable (w : World σ) (stack : List (Activation σ))

/-- Host code falls into its pieces. -/
theorem execScript_less {script : Script σ} (h : script.reenters = false) :
    Less (execScript w stack script) ⟨w, stack, .code script⟩ := by
  have hfits := fits_pieces (execScript_ends w stack script) (execScript_hosts w stack h)
  have hall : (↑script.starts + w.ends).map Continuation.piece + (↑script.rest + dormant w stack) =
      ↑script.pieces + later w stack := by
    rw [later, Multiset.map_add, add_add_add_comm, Multiset.map_coe, Multiset.coe_add]
    rfl
  rw [hall] at hfits
  refine .pieces ?_
  rw [pieces_eq w stack (.code script)]
  exact hfits.trans_shrinks (Piece.shrinks_code script (later w stack))

/-- A continuation is used up, part by part. -/
theorem resume_less (next : Continuation σ) (outcome : Outcome) :
    Less (resume w stack next outcome) ⟨w, stack, .resume next outcome⟩ := by
  by_cases hdepth : next.depth = 0
  · rcases resume_end_hosts w stack outcome hdepth with ⟨t, hbelow, hhosts⟩
    have hfits := fits_pieces (resume_ends w stack outcome hdepth) hhosts
    rw [add_left_comm] at hfits
    refine .pieces ?_
    rw [pieces_eq w stack (.resume next outcome)]
    exact hfits.trans_shrinks (Piece.shrinks_of_below hbelow (later w stack))
  · rcases resume_part w stack outcome hdepth with ⟨hhosts, hnearer⟩
    have hends : (resume w stack next outcome).ends ≤ ends ⟨w, stack, .resume next outcome⟩ :=
      step_ends rfl rfl rfl
    exact .depth (fits_pieces hends (Piece.fits_of_le (hhosts.trans (zero_add _).symm).le)) hnearer

/-- A caller that is returned to goes on with the host code that has waited, or returns. -/
theorem returns_less {focus other : Focus σ} {v : World σ} {caller : Activation σ}
    (hfocus : focus.returns = true) (hworld : later v stack = later w stack)
    (hother : other.returns = true ∨ ∃ (α : Type) (next : α → Script σ) (answer : α),
      caller.pieces = [.branch next] ∧ other = .code (next answer)) :
    Less ⟨v, stack, other⟩ ⟨w, caller :: stack, focus⟩ := by
  have hnothing {focus : Focus σ} (h : focus.returns = true) :
      focus.ends.map Continuation.piece ++ focus.pieces = [] ∧ focus.depth = 0 := by
    cases focus <;> first | exact ⟨rfl, rfl⟩ | cases h
  rcases hother with hother | ⟨α, next, answer, hcaller, rfl⟩
  · refine .callers ?_ ((hnothing hother).2.trans (hnothing hfocus).2.symm) (Nat.lt_succ_self _)
    rw [pieces_eq, pieces_eq, (hnothing hother).1, (hnothing hfocus).1, later_cons, hworld]
    exact Piece.fits_of_le (add_le_add le_rfl (Multiset.le_add_left _ _))
  · refine .pieces ?_
    rw [pieces_eq, pieces_eq, (hnothing hfocus).1, later_cons, hcaller, hworld, Multiset.coe_nil,
      zero_add]
    exact Piece.shrinks_branch next answer (later w stack)

end

/-- Every transition leaves less to do, unless host code calls other host code, or a run is returned
to. -/
theorem step_less {m n : Machine σ} (h : m.step = some n)
    (hcode : ∀ script, m.focus = .code script → script.reenters = false)
    (hrun : m.focus.returns = true → ∀ caller ∈ m.stack.head?, caller.isRun = false) :
    Less n m := by
  rcases m with ⟨w, stack, focus⟩
  cases focus with
  | code script =>
    cases h
    exact execScript_less w stack (hcode script rfl)
  | resume next outcome =>
    cases h
    exact resume_less w stack next outcome
  | back result =>
    cases stack with
    | nil => cases h
    | cons caller stack =>
      cases h
      cases caller with
      | hold refs => exact returns_less w stack rfl rfl (Or.inl rfl)
      | run horizon count next => cases hrun rfl _ rfl
      | await next => exact returns_less w stack rfl rfl (Or.inr ⟨_, next, result, rfl, rfl⟩)
      | shield next => exact returns_less w stack rfl rfl (Or.inr ⟨_, next, .ok result, rfl, rfl⟩)
      | successHook client hook =>
        refine returns_less w stack rfl ?_ (Or.inl rfl)
        unfold restoreSuccess
        dsimp only
        split <;> rfl
      | failureHook client hook =>
        refine returns_less w stack rfl ?_ (Or.inl rfl)
        unfold restoreFailure
        dsimp only
        split <;> rfl
  | crash cause =>
    cases stack with
    | nil => cases h
    | cons caller stack =>
      cases h
      cases caller with
      | shield next => exact returns_less w stack rfl rfl (Or.inr ⟨_, next, .error cause, rfl, rfl⟩)
      | _ => exact returns_less w stack rfl rfl (Or.inl rfl)

end Machine
end Callflow

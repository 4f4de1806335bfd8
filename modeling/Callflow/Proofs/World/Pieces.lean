import Callflow.Proofs.World.Calls
import Callflow.Proofs.World.Stock
import Mathlib.Logic.Hydra

/-!
# Pieces of work

What a machine has still to do, it has in pieces: host code, host code that is chosen by an answer,
and the ends of continuations. A piece gives way to any number of smaller ones, those that a node of
host code is made of or the code that is chosen (`Piece.Below`), and this cannot go on for ever
(`Piece.wellFounded_shrinks`). Only the end of a client's body may give way to any host code at all,
the hook of the client.
-/

namespace Callflow

open Relation (CutExpand)

variable {σ : Type}

/-- A piece of work. -/
inductive Piece (σ : Type) : Type 1 where
  | code (script : Script σ)
  -- Host code that waits for an answer.
  | branch {α : Type} (next : α → Script σ)
  -- The reply to a request.
  | reply
  -- The end of a client's body.
  | complete

/-- The piece that the end of a continuation is. -/
def Continuation.piece : Continuation σ → Piece σ
  | .host resume => .branch resume
  | .complete _ => .complete
  | _ => .reply

namespace Script

/-- The continuations that the first node of some host code begins. -/
def starts : Script σ → List (Continuation σ)
  | .evaluate _ _ resume _ => [.host resume]
  | .execute _ _ resume _ => [.host resume]
  | .process id _ _ => [.reply id]
  | _ => []

/-- The host code that the first node of some host code hands over, to be called later. -/
def leaves : Script σ → List (Piece σ)
  | .schedule _ _ callback _ => [.code callback]
  | .bind _ _ _ handler _ => [.branch handler]
  | .onSuccess _ hook _ => [.code hook]
  | .onFailure _ hook _ => [.branch hook]
  | .request _ _ _ succeeded failed _ =>
    (succeeded.map Piece.code).toList ++ (failed.map Piece.branch).toList
  | _ => []

/-- The host code that some host code goes on with by itself after its first node. -/
def onward : Script σ → List (Piece σ)
  | .done => []
  | .fail _ => []
  | .crash _ => []
  | .shield body next => [.code body, .branch next]
  | .recall next => [.branch next]
  | .remember _ next => [.code next]
  | .observe next => [.branch next]
  | .readJournal next => [.branch next]
  | .record _ next => [.code next]
  | .schedule _ _ _ next => [.branch next]
  | .replyAfter _ _ _ next => [.branch next]
  | .run _ next => [.branch next]
  | .evaluate _ _ _ next => [.branch next]
  | .execute _ _ _ next => [.branch next]
  | .define _ _ next => [.branch next]
  | .bind _ _ _ _ next => [.branch next]
  | .onSuccess _ _ next => [.code next]
  | .onFailure _ _ next => [.code next]
  | .allocate next => [.branch next]
  | .request _ _ _ _ _ next => [.branch next]
  | .keep _ _ next => [.code next]
  | .send _ _ next => [.code next]
  | .process _ _ next => [.branch next]
  | .reply _ _ next => [.branch next]

/-- The host code that is left after the first node of some host code. -/
def rest (script : Script σ) : List (Piece σ) := script.leaves ++ script.onward

/-- Whether host code calls host code that it is not made of: by a run, or by the handler of an
endpoint. -/
def reenters : Script σ → Bool
  | .run .. => true
  | .process _ (.endpoint _) _ => true
  | _ => false

/-- The pieces that some host code falls into with its first node. -/
def pieces (script : Script σ) : List (Piece σ) :=
  script.starts.map Continuation.piece ++ script.rest

end Script

namespace Piece

/-- What a piece may give way to. -/
inductive Below : Piece σ → Piece σ → Prop where
  | code {script : Script σ} {x : Piece σ} : x ∈ script.pieces → Below x (.code script)
  | branch {α : Type} (next : α → Script σ) (answer : α) :
      Below (.code (next answer)) (.branch next)
  | complete (script : Script σ) : Below (.code script) .complete

/-! ## Pieces get smaller -/

theorem acc_of_pieces {script : Script σ} (h : ∀ x ∈ script.pieces, Acc Below x) :
    Acc Below (.code script) := by
  refine .intro _ ?_
  rintro x ⟨hx⟩
  exact h x hx

theorem acc_branch {α : Type} {next : α → Script σ}
    (h : ∀ answer, Acc Below (.code (next answer))) : Acc Below (.branch next) := by
  refine .intro _ ?_
  rintro _ ⟨⟩
  exact h _

theorem acc_reply : Acc Below (.reply : Piece σ) := .intro _ (by rintro _ ⟨⟩)

theorem acc_of_none {script : Script σ} (hpieces : script.pieces = []) :
    Acc Below (.code script) := by
  refine acc_of_pieces ?_
  rw [hpieces]
  simp

theorem acc_of_one {script : Script σ} {x : Piece σ} (hpieces : script.pieces = [x])
    (hx : Acc Below x) : Acc Below (.code script) := by
  refine acc_of_pieces ?_
  rw [hpieces]
  simpa using hx

theorem acc_of_two {script : Script σ} {x y : Piece σ} (hpieces : script.pieces = [x, y])
    (hx : Acc Below x) (hy : Acc Below y) : Acc Below (.code script) := by
  refine acc_of_pieces ?_
  rw [hpieces]
  simpa using ⟨hx, hy⟩

-- Along the tree of the host code, and along the code that a request may be given.
mutual

theorem acc_code : (script : Script σ) → Acc Below (.code script)
  | .done => acc_of_none rfl
  | .fail _ => acc_of_none rfl
  | .crash _ => acc_of_none rfl
  | .shield body next =>
    acc_of_two rfl (acc_code body) (acc_branch fun answer => acc_code (next answer))
  | .recall next => acc_of_one rfl (acc_branch fun answer => acc_code (next answer))
  | .remember _ next => acc_of_one rfl (acc_code next)
  | .observe next => acc_of_one rfl (acc_branch fun answer => acc_code (next answer))
  | .readJournal next => acc_of_one rfl (acc_branch fun answer => acc_code (next answer))
  | .record _ next => acc_of_one rfl (acc_code next)
  | .schedule _ _ callback next =>
    acc_of_two rfl (acc_code callback) (acc_branch fun answer => acc_code (next answer))
  | .replyAfter _ _ _ next => acc_of_one rfl (acc_branch fun answer => acc_code (next answer))
  | .run _ next => acc_of_one rfl (acc_branch fun answer => acc_code (next answer))
  | .evaluate _ _ resume next =>
    acc_of_two rfl (acc_branch fun answer => acc_code (resume answer))
      (acc_branch fun answer => acc_code (next answer))
  | .execute _ _ resume next =>
    acc_of_two rfl (acc_branch fun answer => acc_code (resume answer))
      (acc_branch fun answer => acc_code (next answer))
  | .define _ _ next => acc_of_one rfl (acc_branch fun answer => acc_code (next answer))
  | .bind _ _ _ handler next =>
    acc_of_two rfl (acc_branch fun answer => acc_code (handler answer))
      (acc_branch fun answer => acc_code (next answer))
  | .onSuccess _ hook next => acc_of_two rfl (acc_code hook) (acc_code next)
  | .onFailure _ hook next =>
    acc_of_two rfl (acc_branch fun answer => acc_code (hook answer)) (acc_code next)
  | .allocate next => acc_of_one rfl (acc_branch fun answer => acc_code (next answer))
  | .request _ _ _ succeeded failed next => by
    refine acc_of_pieces fun x hx => ?_
    simp only [Script.pieces, Script.starts, Script.rest, Script.leaves, Script.onward,
      List.map_nil, List.nil_append, List.mem_append, List.mem_singleton, Option.mem_toList,
      Option.map_eq_some_iff] at hx
    rcases hx with (⟨script, hsome, rfl⟩ | ⟨hook, hsome, rfl⟩) | rfl
    · exact acc_succeeded succeeded script hsome
    · exact acc_branch (acc_failed failed hook hsome)
    · exact acc_branch fun answer => acc_code (next answer)
  | .keep _ _ next => acc_of_one rfl (acc_code next)
  | .send _ _ next => acc_of_one rfl (acc_code next)
  | .process _ _ next =>
    acc_of_two rfl acc_reply (acc_branch fun answer => acc_code (next answer))
  | .reply _ _ next => acc_of_one rfl (acc_branch fun answer => acc_code (next answer))

theorem acc_succeeded : (succeeded : Option (Script σ)) → ∀ script, succeeded = some script →
    Acc Below (.code script)
  | none => by simp
  | some script => by
    rintro _ ⟨⟩
    exact acc_code script

theorem acc_failed : (failed : Option (Failure → Script σ)) → ∀ hook, failed = some hook →
    ∀ cause, Acc Below (.code (hook cause))
  | none => by simp
  | some hook => by
    rintro _ ⟨⟩ cause
    exact acc_code (hook cause)

end

theorem wellFounded_below : WellFounded (Below (σ := σ)) := by
  refine ⟨fun x => ?_⟩
  cases x with
  | code script => exact acc_code script
  | branch next => exact acc_branch fun answer => acc_code (next answer)
  | reply => exact acc_reply
  | complete =>
    refine .intro _ ?_
    rintro _ ⟨⟩
    exact acc_code _

/-! ## Many pieces -/

/-- Some pieces are what is left of others when some of these have given way, one after another. -/
def Shrinks (s t : Multiset (Piece σ)) : Prop := Relation.TransGen (CutExpand Below) s t

/-- The same, unless they are the same pieces. -/
def Fits (s t : Multiset (Piece σ)) : Prop := Relation.ReflTransGen (CutExpand Below) s t

theorem wellFounded_shrinks : WellFounded (Shrinks (σ := σ)) :=
  wellFounded_below.cutExpand.transGen

section

variable {s t u : Multiset (Piece σ)}

theorem Fits.refl (s : Multiset (Piece σ)) : Fits s s := Relation.ReflTransGen.refl

theorem Fits.trans (h : Fits s t) (k : Fits t u) : Fits s u := Relation.ReflTransGen.trans h k

theorem Fits.trans_shrinks (h : Fits s t) (k : Shrinks t u) : Shrinks s u :=
  Relation.TransGen.trans_right h k

theorem Shrinks.fits (h : Shrinks s t) : Fits s t := Relation.TransGen.to_reflTransGen h

theorem Fits.eq_or_shrinks (h : Fits s t) : s = t ∨ Shrinks s t :=
  (Relation.reflTransGen_iff_eq_or_transGen.1 h).imp Eq.symm id

theorem Fits.add_right (h : Fits s t) (u : Multiset (Piece σ)) : Fits (s + u) (t + u) :=
  Relation.ReflTransGen.lift (· + u) (fun _ _ hcut => (Relation.cutExpand_add_right u).2 hcut) _ _ h

/-- Some pieces may be missing. -/
theorem fits_of_le (h : s ≤ t) : Fits s t := by
  rcases Multiset.le_iff_exists_add.1 h with ⟨u, rfl⟩
  induction u using Multiset.induction with
  | empty =>
    rw [add_zero]
    exact .refl s
  | cons x u ih =>
    refine (ih (Multiset.le_add_right s u)).trans (Relation.ReflTransGen.single ?_)
    have hcut : CutExpand Below (s + u + 0) (s + u + {x}) :=
      (Relation.cutExpand_add_left _).2 Relation.cutExpand_zero
    rw [add_zero, add_assoc, add_comm u, Multiset.singleton_add] at hcut
    exact hcut

/-- A piece gives way to smaller ones. -/
theorem shrinks_of_below {x : Piece σ} (h : ∀ y ∈ s, Below y x) (u : Multiset (Piece σ)) :
    Shrinks (s + u) ({x} + u) :=
  Relation.TransGen.single ((Relation.cutExpand_add_right u).2 (Relation.cutExpand_singleton h))

theorem shrinks_code (script : Script σ) (u : Multiset (Piece σ)) :
    Shrinks ((↑script.pieces : Multiset (Piece σ)) + u) ({.code script} + u) :=
  shrinks_of_below (fun _ hy => .code (Multiset.mem_coe.1 hy)) u

theorem shrinks_branch {α : Type} (next : α → Script σ) (answer : α) (u : Multiset (Piece σ)) :
    Shrinks ({.code (next answer)} + u) ({.branch next} + u) := by
  refine shrinks_of_below ?_ u
  intro y hy
  rw [Multiset.mem_singleton.1 hy]
  exact .branch next answer

end

end Piece

/-! ## Pieces of a world -/

/-- The ends of the continuations that wait in an event. -/
def Callback.ends : Callback σ → List (Continuation σ)
  | .wake next => [next.bottom]
  | .attempt _ _ _ next => [next.bottom]
  | _ => []

/-- The ends of the continuations that wait for a request. -/
def Waiter.ends : Waiter σ → List (Continuation σ)
  | .continuation next => [next.bottom]
  | _ => []

/-- The host code that waits for a request. -/
def Waiter.hooks : Waiter σ → List (Piece σ)
  | .host succeeded failed =>
    (succeeded.map Piece.code).toList ++ (failed.map Piece.branch).toList
  | _ => []

namespace World

/-- The ends of all continuations that wait. -/
def ends (w : World σ) : Multiset (Continuation σ) :=
  ↑(w.agenda.pending.flatMap (fun e => e.work.ends) ++ w.waiters.toList.flatMap Waiter.ends)

/-- The host code that waits for requests. -/
def hooks (w : World σ) : Multiset (Piece σ) := ↑(w.waiters.toList.flatMap Waiter.hooks)

/-! ### Continuations -/

theorem countP_work (p : Continuation σ → Bool) (work : Callback σ) :
    work.ends.countP p = work.stock p := by
  cases work <;>
    simp [Callback.ends, Callback.stock, Continuation.stock, List.countP_cons, Bool.toNat,
      Bool.cond_eq_ite]

theorem countP_waiter (p : Continuation σ → Bool) (waiter : Waiter σ) :
    waiter.ends.countP p = waiter.stock p := by
  cases waiter <;>
    simp [Waiter.ends, Waiter.stock, Continuation.stock, List.countP_cons, Bool.toNat,
      Bool.cond_eq_ite]

/-- The ends that wait are those that the stock counts. -/
theorem countP_ends (p : Continuation σ → Bool) (w : World σ) :
    w.ends.countP (p ·) = w.stock p := by
  simp [ends, stock, Agenda.stock, List.countP_flatMap, Function.comp_def, countP_work,
    countP_waiter]

theorem le_of_countP {s t : Multiset (Continuation σ)}
    (h : ∀ p : Continuation σ → Bool, s.countP (p ·) ≤ t.countP (p ·)) : s ≤ t := by
  classical
  rw [Multiset.le_iff_count]
  intro c
  have hc := h fun x => decide (c = x)
  simpa [Multiset.count] using hc

/-- What counts no more than some continuations and those of another world. -/
theorem ends_le {w v : World σ} {s : Multiset (Continuation σ)}
    (h : ∀ p, v.stock p ≤ s.countP (p ·) + w.stock p) : v.ends ≤ s + w.ends := by
  refine le_of_countP fun p => ?_
  rw [Multiset.countP_add, countP_ends, countP_ends]
  exact h p

/-- What counts is there. -/
theorem mem_ends {w : World σ} {c : Continuation σ} (h : ∀ p, p c = true → 0 < w.stock p) :
    c ∈ w.ends := by
  classical
  have hpos := h (fun x => decide (c = x)) (by simp)
  rw [← countP_ends] at hpos
  rcases Multiset.countP_pos.1 hpos with ⟨x, hx, hsame⟩
  rw [of_decide_eq_true hsame]
  exact hx

/-! ### Host code that waits -/

theorem hooks_of_waiters {w v : World σ} (h : v.waiters = w.waiters) : v.hooks = w.hooks := by
  rw [hooks, hooks, h]

theorem hooks_issue (w : World σ) (caller : Caller) (operation : String) (deadline : Option Time)
    (waiter : Waiter σ) :
    (w.issue caller operation deadline waiter).1.hooks = ↑waiter.hooks + w.hooks := by
  simp [hooks, issue, add_comm]

theorem hooks_schedule {w v : World σ} {delay : Time} {kind : EventKind} {work : Callback σ}
    {event : EventId} (h : w.schedule delay kind work = .ok (v, event)) : v.hooks = w.hooks := by
  rcases schedule_eq_ok h with ⟨agenda, _, rfl, -⟩
  exact hooks_of_waiters rfl

theorem hooks_send (w : World σ) (id : RequestId) (target : Target) :
    (w.send id target).1.hooks = w.hooks :=
  hooks_of_waiters (w.send_requests id target).2

theorem flatMap_set {l : List (Waiter σ)} {i : Nat} {x y : Waiter σ} (h : l[i]? = some x) :
    (↑x.hooks : Multiset (Piece σ)) + ↑((l.set i y).flatMap Waiter.hooks) =
      ↑y.hooks + ↑(l.flatMap Waiter.hooks) := by
  induction l generalizing i with
  | nil => simp at h
  | cons first rest ih =>
    cases i with
    | zero =>
      simp only [List.getElem?_cons_zero, Option.some.injEq] at h
      subst h
      simp only [List.set_cons_zero, List.flatMap_cons, ← Multiset.coe_add]
      rw [add_left_comm]
    | succ i =>
      have hrest := ih (i := i) (by simpa using h)
      simp only [List.set_cons_succ, List.flatMap_cons, ← Multiset.coe_add]
      rw [add_left_comm, hrest, add_left_comm]

/-- A reply takes out whoever has waited. -/
theorem hooks_settle (w : World σ) (id : RequestId) (failure : Option Failure) :
    ↑(w.settle id failure).2.hooks + (w.settle id failure).1.hooks = w.hooks := by
  have hnobody : (Waiter.hooks (.nobody : Waiter σ) : Multiset (Piece σ)) = 0 := rfl
  cases hr : w.request? id with
  | none => rw [settle_absent failure hr, hnobody, zero_add]
  | some r =>
    cases hp : r.isPending with
    | false =>
      rw [settle_stale failure hr hp, hnobody, zero_add]
      exact hooks_of_waiters rfl
    | true =>
      rw [settle_pending failure hr hp]
      simp only [hooks, waiter, Array.toList_setIfInBounds]
      cases hx : w.waiters[id.number]? with
      | none =>
        -- There is no place for the request, so nobody is taken out.
        have hlen : w.waiters.toList.length ≤ id.number := by
          rw [Array.length_toList]
          exact Array.getElem?_eq_none_iff.1 hx
        rw [List.set_eq_of_length_le hlen, Option.getD_none, hnobody, zero_add]
      | some x =>
        have hset := flatMap_set (y := .nobody) (by rw [Array.getElem?_toList]; exact hx)
        rw [Option.getD_some, hset, hnobody, zero_add]

/-- Nobody begins or ceases to wait where nothing is about requests. -/
theorem Still.waiters {w v : World σ} (h : Still w v) : v.waiters = w.waiters := by
  rcases h.deeds with ⟨deeds, hpath, hstill⟩
  have hsize := h.size
  clear h
  induction hpath with
  | refl => rfl
  | @move deeds more v u hpath hm ih =>
    have hbefore := hpath.size_le
    have hafter := hm.effect.size_le
    have hearlier := ih (fun d hd => hstill d (List.mem_append_left _ hd)) (by omega)
    cases hm.effect with
    | none _ hwaiters _ => exact hwaiters.trans hearlier
    | fresh request waiter hrequests _ _ _ _ =>
      rw [hrequests, Array.size_push] at hsize
      omega
    | @settled id r time failure _ _ _ _ hanswers =>
      -- A request that is settled is told by a deed.
      have hsettled := hanswers id
      rw [if_pos rfl] at hsettled
      have hmem : Deed.settled time id failure ∈ more :=
        List.mem_of_mem_filter (by rw [hsettled]; exact List.mem_singleton_self _)
      have hnot := hstill _ (List.mem_append_right _ hmem)
      cases hnot
    | stale _ _ _ _ _ hwaiters _ => exact hwaiters.trans hearlier

theorem hooks_perform (c : Call σ) : c.perform.1.hooks = c.world.hooks := by
  rcases c with ⟨w, inUse, frame, next, symbol, operation, manner⟩
  have hissued (deadline : Option Time) (waiter : Waiter σ) (target : Target)
      (hwaiter : waiter.hooks = []) :
      ((w.issue frame.caller operation deadline waiter).1.send ⟨w.requests.size⟩ target).1.hooks =
        w.hooks := by
    rw [hooks_send, hooks_issue, hwaiter]
    exact zero_add _
  cases manner with
  | trigger =>
    cases hresolve : w.resolve inUse frame next symbol with
    | error e =>
      simp only [Call.perform, trigger, hresolve]
      rfl
    | ok target =>
      show (w.trigger inUse symbol operation frame next).1.hooks = w.hooks
      rw [trigger_world hresolve]
      exact hissued none .nobody target rfl
  | query timeout =>
    generalize hquery : w.query inUse symbol operation timeout frame next = e
    rcases e with ⟨u, result⟩
    have hperform : (Call.mk w inUse frame next symbol operation (.query timeout)).perform.1 = u :=
      congrArg Prod.fst hquery
    rw [hperform]
    rcases query_cases hquery with
      ⟨_, _, rfl, _⟩ | ⟨target, _, _, _, _, hsend⟩ | ⟨target, _, _, _, hsend⟩ |
      ⟨target, delay, v, event, _, _, _, _, hsend, hwatch⟩
    · rfl
    · have hu := hissued none (.continuation next) target rfl
      rwa [hsend] at hu
    · have hu := hissued none (.continuation next) target rfl
      rwa [hsend] at hu
    · have hv := hissued (some (w.now + delay)) (.continuation next) target rfl
      rw [hsend] at hv
      exact (hooks_schedule hwatch).trans hv

/-- An evaluation leaves the host code alone that waits. -/
theorem Course.hooks {w v : World σ} {calls : List (Call σ)} (h : Course w calls v) :
    v.hooks = w.hooks := by
  induction h with
  | still hs => exact hooks_of_waiters hs.waiters
  | @call w v c rest hs _ ih =>
    rw [ih, hooks_perform, hooks_of_waiters hs.waiters]

end World
end Callflow

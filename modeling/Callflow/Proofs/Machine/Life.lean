import Callflow.Machine.Run
import Callflow.Proofs.Machine.Transition
import Callflow.Proofs.World.Timeouts

/-!
# The life of a simulation

A machine makes its transitions, and whenever it has returned from everything, the host may call it
again with any host code: a `Machine.Life` is any such course of events. It comes with the machines
that have moved on, so that one can tell what happened before what. `Life.deeds` sums up the deeds of
all their transitions, and `Life.sound` says that the world stays sound.
-/

namespace Callflow

/-- The moves of a longer life. -/
theorem zip_tail_concat {β : Type} (past : List β) (b c : β) :
    (past ++ [b]).zip ((past ++ [b]).tail ++ [c]) = past.zip (past.tail ++ [b]) ++ [(b, c)] := by
  cases past with
  | nil => rfl
  | cons x rest =>
    rw [List.cons_append, List.tail_cons, ← List.cons_append, List.zip_append (by simp)]
    rfl

/-- What is listed of a longer life. -/
theorem filterMap_concat {β γ : Type} (f : β → Option γ) (past : List β) (b : β) :
    (past ++ [b]).filterMap f = past.filterMap f ++ (f b).toList := by
  rw [List.filterMap_append]
  cases hb : f b <;> simp [hb]

namespace Machine

open World (Deed Path)

variable {σ : Type}

/-- What follows: a transition or, when everything has returned, a call of the host. -/
inductive Next (m : Machine σ) : Machine σ → Prop where
  | step {n : Machine σ} : m.step = some n → Next m n
  | call (script : Script σ) : m.step = none → Next m ⟨m.world, [], .code script⟩

/-- A course of events, with the machines that have moved on, the oldest first. -/
inductive Life (a : Machine σ) : List (Machine σ) → Machine σ → Prop where
  | refl : Life a [] a
  | next {past : List (Machine σ)} {b c : Machine σ} :
      Life a past b → Next b c → Life a (past ++ [b]) c

/-- A simulation that nobody has called. -/
def idle (w : World σ) : Machine σ := ⟨w, [], .back (.ok ())⟩

/-- The machines that move on in a run of at most `fuel` transitions. -/
def trail : Nat → Machine σ → List (Machine σ)
  | 0, _ => []
  | fuel + 1, m =>
    match m.step with
    | some n => m :: trail fuel n
    | none => []

/-- Nothing else follows where there is a transition. -/
theorem Next.eq_of_step {b c n : Machine σ} (h : Next b c) (hs : b.step = some n) : c = n := by
  cases h with
  | step hnext => exact Option.some_inj.1 (hnext.symm.trans hs)
  | call script hnone =>
    rw [hs] at hnone
    cases hnone

/-! ## Cutting a life -/

theorem Life.trans {a b c : Machine σ} {past more : List (Machine σ)} (h : Life a past b)
    (k : Life b more c) : Life a (past ++ more) c := by
  induction k with
  | refl =>
    rw [List.append_nil]
    exact h
  | next _ hn ih =>
    rw [← List.append_assoc]
    exact ih.next hn

/-- A run is a life. -/
theorem life_run (fuel : Nat) (m : Machine σ) : Life m (trail fuel m) (run fuel m) := by
  induction fuel generalizing m with
  | zero => exact .refl
  | succ fuel ih =>
    rw [trail, run]
    cases hs : m.step with
    | none => exact .refl
    | some n => exact (Life.refl.next (.step hs)).trans (ih n)

/-- Where an element of a longer list stands: at its end, or in the list before. -/
theorem split_concat {β : Type} {l before after : List β} {x y : β}
    (h : l ++ [x] = before ++ y :: after) :
    (l = before ∧ x = y) ∨ ∃ less, l = before ++ y :: less := by
  rcases List.eq_nil_or_concat after with rfl | ⟨less, z, rfl⟩
  · left
    rcases List.append_inj' h rfl with ⟨hl, hx⟩
    exact ⟨hl, List.cons.inj hx |>.1⟩
  · right
    have hsplit : l ++ [x] = (before ++ y :: less) ++ [z] := by
      rw [h]
      simp
    exact ⟨less, (List.append_inj' hsplit rfl).1⟩

/-- Any machine of the past cuts a life in two. -/
theorem Life.cut {a b x : Machine σ} {before after : List (Machine σ)}
    (h : Life a (before ++ x :: after) b) :
    Life a before x ∧ ∃ y, Next x y ∧ Life y after b := by
  generalize hpast : before ++ x :: after = past at h
  induction h generalizing after with
  | refl => simp at hpast
  | @next past b c hlife hn ih =>
    -- The machine is the last one of the past, or it cuts the life up to there.
    rcases split_concat hpast.symm with ⟨rfl, rfl⟩ | ⟨less, hless⟩
    · have hafter : after = [] := by simpa using hpast
      subst hafter
      exact ⟨hlife, c, hn, .refl⟩
    · rw [hless] at hpast
      have hafter : after = less ++ [b] := by simpa using hpast
      rcases ih hless.symm with ⟨hbefore, y, hy, hrest⟩
      rw [hafter]
      exact ⟨hbefore, y, hy, hrest.next hn⟩

theorem Life.eq_of_nil {a b : Machine σ} (h : Life a [] b) : b = a := by
  generalize hnil : ([] : List (Machine σ)) = past at h
  cases h with
  | refl => rfl
  | next _ _ => simp at hnil

/-- The first transition of a life. -/
theorem Life.first {a b x : Machine σ} {rest : List (Machine σ)} (h : Life a (x :: rest) b) :
    x = a ∧ ∃ y, Next a y ∧ Life y rest b := by
  have hsplit : Life a ([] ++ x :: rest) b := h
  rcases hsplit.cut with ⟨hbefore, hafter⟩
  have hx := hbefore.eq_of_nil
  rw [hx] at hafter
  exact ⟨hx, hafter⟩

/-- A life goes on from any machine of its past. -/
theorem Life.rest {a b x : Machine σ} {before after : List (Machine σ)}
    (h : Life a (before ++ x :: after) b) : Life x (x :: after) b := by
  rcases h.cut with ⟨-, y, hy, hafter⟩
  exact (Life.refl.next hy).trans hafter

/-- A life passes through each of its machines. -/
theorem Life.through {a b x : Machine σ} {past : List (Machine σ)} (h : Life a past b)
    (hx : x ∈ past ++ [b]) : ∃ before after, Life a before x ∧ Life x after b := by
  rcases List.mem_append.1 hx with hx | hx
  · rcases List.append_of_mem hx with ⟨before, after, rfl⟩
    exact ⟨before, x :: after, h.cut.1, h.rest⟩
  · rw [List.mem_singleton.1 hx]
    exact ⟨past, [], h, .refl⟩

/-! ## The deeds of a life -/

theorem Next.leads {m n : Machine σ} (h : Next m n) : Leads m n.world := by
  cases h with
  | step hs => exact step_leads hs
  | call script hnone =>
    rcases m with ⟨w, stack, focus⟩
    cases focus with
    | code script => cases hnone
    | resume next outcome => cases hnone
    | back result =>
      cases stack with
      | nil => cases result <;> exact .of_still (.refl w) rfl rfl rfl rfl rfl
      | cons caller stack => cases hnone
    | crash cause =>
      cases stack with
      | nil => exact .of_still (.refl w) rfl rfl rfl rfl rfl
      | cons caller stack => cases hnone

theorem Next.explains {m n : Machine σ} (h : Next m n) :
    ∃ deeds, Path m.world deeds n.world ∧ Explains m deeds := by
  rcases h.leads.deeds with ⟨deeds, hpath, hexplains, -⟩
  exact ⟨deeds, hpath, hexplains⟩

/-- What has been defined stays defined for the rest of a life. -/
theorem Life.grows {a b : Machine σ} {past : List (Machine σ)} (h : Life a past b) :
    a.world.store.Grows b.world.store := by
  induction h with
  | refl => exact .refl _
  | next _ hn ih =>
    rcases hn.explains with ⟨deeds, hpath, -⟩
    exact ih.trans hpath.grows

/-- A path of the world with the deeds of some machines. -/
structure Account (a : Machine σ) (past : List (Machine σ)) (deeds : List (Deed σ))
    (b : Machine σ) : Prop where
  path : Path a.world deeds b.world
  taken : deeds.filterMap Deed.taken? = past.filterMap taken?
  recorded : deeds.filterMap Deed.recorded? = past.filterMap recorded?
  answered : ∀ id, (a.world.request? id).isSome →
    deeds.filter (Deed.answers id) = past.filterMap fun m => (m.answerTo? id).map Answer.deed
  settled : deeds.filterMap Deed.settled? =
    past.filterMap fun m => m.settling?.map Answer.settlement

theorem Life.deeds {a b : Machine σ} {past : List (Machine σ)} (h : Life a past b)
    (ha : a.world.Waiting) : ∃ deeds, Account a past deeds b := by
  induction h with
  | refl => exact ⟨[], .refl, rfl, rfl, fun _ _ => rfl, rfl⟩
  | @next past b c _ hn ih =>
    rcases ih with ⟨deeds, hpath, htaken, hrecorded, hanswered, hsettled⟩
    rcases hn.explains with ⟨more, hmore, hexplains⟩
    refine ⟨deeds ++ more, hpath.trans hmore, ?_, ?_, ?_, ?_⟩
    · rw [List.filterMap_append, filterMap_concat, htaken, hexplains.taken]
    · rw [List.filterMap_append, filterMap_concat, hrecorded, hexplains.recorded]
    · intro id hid
      rw [List.filter_append, filterMap_concat, hanswered id hid,
        hexplains.answered id (hpath.request?_isSome ha hid)]
    · rw [List.filterMap_append, filterMap_concat, hsettled, hexplains.settled]

theorem Life.sound {a b : Machine σ} {past : List (Machine σ)} (h : Life a past b)
    (ha : a.world.Sound) : b.world.Sound := by
  rcases h.deeds ha.waiting with ⟨deeds, hdeeds⟩
  exact hdeeds.path.sound ha

theorem sound_idle (config : SimulationConfig) (memory : σ) :
    (idle (World.start config memory)).world.Sound :=
  World.sound_start config memory

end Machine
end Callflow

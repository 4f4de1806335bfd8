import Callflow.Proofs.Machine.Race
import Callflow.Proofs.Store.Resolution

/-!
# Symbols in the life of a simulation

A frame that could resolve a symbol once may go on later: `Life.resolution_lost_iff` says exactly when
it cannot resolve the symbol any more. This does happen, although the root scope lives for ever
(`Life.alive_root`): when a service is defined again while one of its operations is suspended, nobody
holds the scope of the old service, and the operation has lost even the symbols of the root scope
(`redefinition_loses_symbols`).
-/

namespace Callflow

variable {σ : Type}

/-- Whether a frame can resolve a symbol, in an evaluation for a continuation. -/
def Frame.resolves (f : Frame) (w : World σ) (inUse : List Ref) (next : Continuation σ)
    (symbol : String) : Bool :=
  (w.store.lookUp? (w.alive (inUse ++ f.refs) next) f.scope symbol).isSome

/-- A call of a symbol that the frame cannot resolve is a mistake of the program. -/
theorem World.resolve_eq_undefined_iff {w : World σ} {inUse : List Ref} {frame : Frame}
    {next : Continuation σ} {name : String} :
    w.resolve inUse frame next name = .error (.undefinedSymbol name) ↔
      frame.resolves w inUse next name = false := by
  unfold World.resolve Frame.resolves
  split
  · rename_i h
    rw [h]
    simp
  · rename_i value h
    rw [h]
    split <;> simp

namespace Machine

/-! ## Losing symbols -/

/-- The root scope lives for ever. -/
theorem Life.alive_root {config : SimulationConfig} {memory : σ} {past : List (Machine σ)}
    {m : Machine σ} (h : Life (idle (World.start config memory)) past m) (inUse : List Ref)
    (next : Continuation σ) : m.world.alive inUse next World.root = true := by
  rcases h.grows.scope World.root _ rfl with ⟨scope, hroot, -⟩
  rw [World.alive, Store.alive, hroot]
  simp [World.held]

/-- When a symbol is lost that a frame could resolve once, or that the root scope around the frame
bound once: some scope around the frame has been abandoned, which is held by nobody, nor is its
service, nor is the service bound in a living scope around; and neither the scope of the frame nor any
scope inside of the abandoned one binds the symbol. -/
theorem Life.resolution_lost_iff {m₀ m : Machine σ} {past : List (Machine σ)}
    (h : Life m₀ past m) {frame : Frame} {inUse : List Ref} {next : Continuation σ} {symbol : String}
    (hbound : (∃ before waiting, frame.resolves m₀.world before waiting symbol = true) ∨
      World.root ∈ frame.scope :: m₀.world.store.around frame.scope ∧
        (m₀.world.store.local? World.root symbol).isSome) :
    frame.resolves m.world inUse next symbol = false ↔
      ∃ inner p outer, m₀.world.store.around frame.scope = inner ++ p :: outer ∧
        m.world.store.Abandoned (m.world.held (inUse ++ frame.refs) next) p ∧
        ∀ d ∈ frame.scope :: inner, m.world.store.local? d symbol = none := by
  have hchain : ∃ d ∈ frame.scope :: m₀.world.store.around frame.scope,
      (m₀.world.store.local? d symbol).isSome := by
    rcases hbound with ⟨before, waiting, hresolved⟩ | ⟨hroot, hbound⟩
    · exact Store.exists_of_lookUp? hresolved
    · exact ⟨World.root, hroot, hbound⟩
  rw [Frame.resolves, Option.isSome_eq_false_iff, Option.isNone_iff_eq_none]
  exact h.grows.lookUp?_eq_none_iff hchain

/-- Host code that defines a service again while one of its operations is suspended. -/
def redefinition : Script Unit :=
  let go := .defineOperation "go" (.sequence [.think 2.0, .trigger "t" "work"])
  .bind "t" "t" 0.0 (fun _ => .done) fun _ =>
    .evaluate (.defineService "s" [go]) .host (fun _ => .done) fun _ =>
    .evaluate (.query "s" "go" none) .host (fun _ => .done) fun _ =>
    .run 1.0 fun _ =>
    .evaluate (.defineService "s" []) .host (fun _ => .done) fun _ =>
    .run 5.0 fun
      | .ok _ => .done
      | .error e => .fail e

/-- The operation has just been suspended. -/
def suspended : Machine Unit := run 10 ⟨World.start ⟨true, none⟩ (), [], .code redefinition⟩

/-- The operation goes on. -/
def resumed : Machine Unit := run 10 suspended

/-- The frame in which a machine goes on with a sequence, and what is to be done afterwards. -/
def goesOn? : Machine σ → Option (Frame × Continuation σ)
  | ⟨_, _, .resume (.steps _ frame next) _⟩ => some (frame, next)
  | _ => none

/-- Whether everything has been stopped by a call of an undefined symbol. -/
def misses (m : Machine σ) (symbol : String) : Bool :=
  match m.stack, m.focus with
  | [], .back (.error (.program (.undefinedSymbol name))) => name = symbol
  | _, _ => false

/-- A suspended operation has lost a symbol that is still bound in the root scope. -/
theorem redefinition_loses_symbols :
    (resumed.goesOn?.map fun (frame, next) =>
      (frame.resolves suspended.world (inUse suspended.stack) next "t",
        frame.resolves resumed.world (inUse resumed.stack) next "t")) = some (true, false) ∧
    (resumed.world.store.local? World.root "t").isSome ∧ (run 10 resumed).misses "t" := by
  decide +kernel

theorem redefinition_resolution_lost :
    ∃ inner p outer, suspended.world.store.around ⟨2⟩ = inner ++ p :: outer ∧
      resumed.world.store.Abandoned (resumed.world.held [.scope ⟨2⟩] (.reply ⟨0⟩)) p ∧
      ∀ d ∈ ⟨2⟩ :: inner, resumed.world.store.local? d "t" = none := by
  have hbefore : (Frame.plain ⟨2⟩ (.operation "s" "go")).resolves suspended.world [] (.reply ⟨0⟩) "t" =
      true := by
    decide +kernel
  have hafter : (Frame.plain ⟨2⟩ (.operation "s" "go")).resolves resumed.world [] (.reply ⟨0⟩) "t" =
      false := by
    decide +kernel
  exact ((life_run 10 suspended).resolution_lost_iff (.inl ⟨_, _, hbefore⟩)).1 hafter

end Machine
end Callflow

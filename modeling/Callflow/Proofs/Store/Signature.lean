import Callflow.Proofs.Store.Growth

/-!
# Operations are signed

A service offers each of its operations under the name of the operation, and the operation names the
service as its owner: the store is `Signed`. So whoever finds an operation under a name knows as whom
its body issues requests. No definition breaks this, except the registration of an operation with
another owner, which programs do not come to.
-/

namespace Callflow
namespace Store

/-- Every service offers its operations under their names, and it is their owner. -/
def Signed (s : Store) : Prop :=
  ∀ id service name op, s.service? id = some service →
    service.operations.find? name = some op → op.name = name ∧ op.owner = service.name

theorem signed_empty : empty.Signed := by
  intro id service name op hservice
  simp [service?, empty] at hservice

/-- Services are all that counts. -/
theorem Signed.of_services {s t : Store} (h : s.Signed) (hsame : t.services = s.services) :
    t.Signed := by
  intro id service name op hservice
  rw [service?, hsame] at hservice
  exact h id service name op hservice

theorem Signed.newService {s : Store} (h : s.Signed) (name : String) (parent : Option ScopeId) :
    (s.newService name parent).1.Signed := by
  intro id service symbol op hservice hop
  have hpush : (s.services.push ⟨name, ⟨s.scopes.size⟩, .empty⟩)[id.index]? = some service :=
    hservice
  rw [Array.getElem?_push] at hpush
  split at hpush
  · -- The new service offers nothing yet.
    cases hpush
    cases hop
  · exact h id service symbol op hpush hop

theorem Signed.register {s : Store} (h : s.Signed) (id : ServiceId) {op : Operation}
    (howner : op.owner = s.targetName (.service id)) : (s.register id op).Signed := by
  intro other service symbol found hservice hfound
  have hmodify : (s.services.modify id.index fun service =>
      { service with operations := service.operations.insert op.name op })[other.index]? =
        some service := hservice
  rw [Array.getElem?_modify] at hmodify
  split at hmodify
  · rename_i hsame
    rcases Option.map_eq_some_iff.1 hmodify with ⟨old, hold, rfl⟩
    have hname : s.targetName (.service id) = old.name := by
      have hlook : s.service? id = some old := by
        rw [service?, hsame]
        exact hold
      simp [targetName, hlook]
    have hinsert : (old.operations.insert op.name op).find? symbol = some found := hfound
    rw [Directory.find?_insert] at hinsert
    split at hinsert
    · rename_i hsymbol
      cases hinsert
      exact ⟨hsymbol, howner.trans hname⟩
    · exact h other old symbol found hold hinsert
  · exact h other service symbol found hmodify hfound

end Store
end Callflow

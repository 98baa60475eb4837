import QueryProjection.Proofs.Expansion.Agreement

/-!
# The history of a registry does not show

A registry remembers types and filters, which saves it questions to its source.  If the source
does not change its mind, and nobody else writes to the cache, that is all the difference it
makes.  Whatever was asked of a registry before, and whether it was answered or failed, a request
is answered as by a registry that was never used (`perform_request_forgets`).

What may differ is the number under which a filter was made, and the order in which it lists the
names that it leaves out.  Neither can be told from what it says of a name (`SimilarIssued`).
-/

namespace QueryProjection

open Expansion (Agrees SimilarIssued)
open Expansion.Correspondence (AnswersAlike)

/-- A request is answered alike from memories that are faithful to one view. -/
theorem agrees_answer {source : Source} (hsteady : source.Steady)
    {view : TypeName → Except Fault (Option ModelFields)} {request : Request}
    {compile : Compile Answer} (hanswer : Session.answer source request = .ok compile) :
    Agrees (Memory.Faithful source view) (AnswersAlike SimilarIssued) compile compile := by
  have hcompile : ∀ (context : Context) (model : String) (nodes : List Field),
      Agrees (Memory.Faithful source view) Eq (compileFields (context.targeting source model) nodes)
        (compileFields (context.targeting source model) nodes) := by
    intro context model nodes
    have hsteadily : (context.targeting source model).Steady := by
      intro target htarget
      cases htarget
      exact hsteady
    have htarget : (context.targeting source model).options.target = some { source, model } := rfl
    rw [← Context.faithful_of_target htarget view]
    exact Expansion.agrees_compileFields (Context.telling_faithful hsteadily view) hsteadily nodes
  have hlooks : (Expansion.agreement (Memory.Faithful source view) fun _ _ => True).Looks
      SimilarIssued source source :=
    Expansion.looks_agreement (Expansion.telling_faithful hsteady)
  -- both requests are to one source, so the one that corresponds is the request itself
  obtain ⟨same, hsame, hagrees⟩ := hlooks.answer hcompile hanswer
  rw [hanswer] at hsame
  cases hsame
  exact hagrees

/-- Two steps came to the same: the same fault, or answers alike, and the same notices. -/
structure StepReport.Alike (first second : StepReport) : Prop where
  result : (∃ fault, first.result = .error fault ∧ second.result = .error fault) ∨
    ∃ answer answer', first.result = .ok answer ∧ second.result = .ok answer' ∧
      AnswersAlike SimilarIssued answer answer'
  notices : first.notices = second.notices

namespace Session

def after (session : Session) (id : String) (requests : List Request) : Session :=
  requests.foldl (fun session request => (session.perform (.request id request)).2) session

/-- A registry that has a source and remembers nothing but what the source says. -/
def Serves (session : Session) (id : String) (source : Source) : Prop :=
  ∃ registry, OrderedMap.get? session.registries id = some registry ∧
    registry.source = source ∧ registry.cache < session.caches.length ∧
    (session.memoryOf registry).Faithful source fun type => source.answer 0 type.key

theorem serves_opened (source : Source) (session : Session) (id : String) :
    (session.perform (.openRegistry id source none)).2.Serves id source := by
  refine ⟨{ source, cache := session.caches.length, filters := [], asked := [] },
    OrderedMap.get?_insert_self _ _ _, rfl, by simp [perform, newCache], ?_⟩
  refine .of_unused (fun type => ?_) rfl
  have hempty : (session.perform (.openRegistry id source none)).2.cacheAt session.caches.length =
      [] := by simp [perform, newCache, cacheAt]
  simp only [Memory.described, memoryOf, hempty]
  rfl

section Steady

variable {source : Source} (hsteady : source.Steady)

include hsteady

theorem Serves.request {session : Session} {id : String} (h : session.Serves id source)
    (request : Request) : (session.perform (.request id request)).2.Serves id source := by
  obtain ⟨registry, hregistry, rfl, hcache, hfaithful⟩ := h
  cases hanswer : answer registry.source request with
  | error fault =>
      rw [perform_refused hregistry hanswer]
      exact ⟨registry, hregistry, rfl, hcache, hfaithful⟩
  | ok compile =>
      rw [perform_request hregistry hanswer]
      have hkept := (lookups_faithful hsteady _).answer hanswer _ hfaithful
      refine ⟨_, OrderedMap.get?_insert_self _ _ _, rfl, ?_, ?_⟩
      · simpa only [keep, List.length_set] using hcache
      · rw [memoryOf_keep hcache]
        exact hkept

theorem Serves.after {session : Session} {id : String} (h : session.Serves id source)
    (requests : List Request) : (session.after id requests).Serves id source := by
  induction requests generalizing session with
  | nil => exact h
  | cons request rest ih => exact ih (h.request hsteady request)

/-- All registries that serve a source report alike. -/
theorem Serves.alike {session session' : Session} {id id' : String} (h : session.Serves id source)
    (h' : session'.Serves id' source) (request : Request) :
    (session.perform (.request id request)).1.Alike
      (session'.perform (.request id' request)).1 := by
  obtain ⟨registry, hregistry, rfl, -, hfaithful⟩ := h
  obtain ⟨registry', hregistry', hsource, -, hfaithful'⟩ := h'
  cases hanswer : answer registry.source request with
  | error fault =>
      rw [perform_refused hregistry hanswer, perform_refused hregistry' (hsource ▸ hanswer)]
      exact ⟨Or.inl ⟨_, rfl, rfl⟩, rfl⟩
  | ok compile =>
      rw [perform_request hregistry hanswer, perform_request hregistry' (hsource ▸ hanswer)]
      have hagrees := agrees_answer hsteady hanswer _ _ hfaithful hfaithful'
      refine ⟨?_, hagrees.notices⟩
      have hends := hagrees.ends
      generalize (compile (session.memoryOf registry)).result = result at hends ⊢
      generalize (compile (session'.memoryOf registry')).result = result' at hends ⊢
      cases hends with
      | ok halike => exact Or.inr ⟨_, _, rfl, rfl, halike⟩
      | error hfault => exact Or.inl ⟨_, rfl, by rw [hfault]; rfl⟩

/-- After any requests, a registry with a cache of its own answers a request as a registry that
is opened for it. -/
theorem perform_request_forgets (session session' : Session) (id id' : String)
    (earlier : List Request) (request : Request) :
    let used := (session.perform (.openRegistry id source none)).2.after id earlier
    let fresh := (session'.perform (.openRegistry id' source none)).2
    (used.perform (.request id request)).1.Alike (fresh.perform (.request id' request)).1 :=
  ((serves_opened source session id).after hsteady earlier).alike hsteady
    (serves_opened source session' id') request

end Steady

/-- A filter without posts, a compilation from a model that is unknown, and one that fails at a
fragment that is not defined, after it has looked up the friends of a person. -/
def earlierRequests : List Request :=
  [.fieldFilter (.text "Person") ["posts", "id"],
    .compile (.names []) (some "Nobody") false none none [],
    .compile (.names []) (some "Person") true none none
      [{ aliasName := none, name := "person", arguments := [], directives := []
         selectionSet := some [Expansion.plainField "friend" (some [.spread "Missing" []])] }]]

def friendsAfterwards : Request :=
  .compile (.names ["id", "posts"]) (some "Person") false none none
    [{ aliasName := none, name := "person", arguments := [], directives := []
       selectionSet := some
        [Expansion.plainField "friend" (some
          [Expansion.plainField "name" none, Expansion.plainField "posts" none])] }]

/-- The registry has nothing left to ask, and reports as one that has. -/
theorem forgets_earlierRequests :
    Expansion.people.Steady ∧
      let used := (start.perform (.openRegistry "used" Expansion.people none)).2.after "used"
        earlierRequests
      let fresh := (start.perform (.openRegistry "fresh" Expansion.people none)).2
      (used.perform (.request "used" friendsAfterwards)).1.asked = [] ∧
        (fresh.perform (.request "fresh" friendsAfterwards)).1.asked = [.text "Person"] ∧
        (used.perform (.request "used" friendsAfterwards)).1.Alike
          (fresh.perform (.request "fresh" friendsAfterwards)).1 := by
  have hsteady : Expansion.people.Steady := Source.steady_ofTable _
  exact ⟨hsteady, rfl, rfl, perform_request_forgets hsteady start start "used" "fresh"
    earlierRequests friendsAfterwards⟩

end Session

end QueryProjection

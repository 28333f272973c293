import ExperienceCodex.Runs

/-!
# Readiness

A flag is made ready by the token of a subscriber, or by a query when there are no tokens.  Each
look at the flag outside the lock of the tokens and each closure under it is one step here, in any
order; a subscription that looks for a token keeps the lock from one step to the next.
-/

namespace ExperienceCodex

/-- The flag, with the calls that have found it not ready and still want the lock, and whether a
subscription has the lock.  Beside it stand the tokens that were handed out, and those for which
`mark_ready` returned true. -/
structure ReadinessFlag where
  ready : Bool := false
  nextId : Int32 := 1
  tokens : List Int32 := []
  subscribing : ℕ := 0
  marking : List Int32 := []
  querying : ℕ := 0
  locked : Bool := false
  handedOut : List Int32 := []
  marked : List Int32 := []

namespace ReadinessFlag

inductive Section where
  | subscribe
  | lockTokens
  | insertToken
  | giveUpSubscribe
  | markReady (token : Int32)
  | removeToken (token : Int32)
  | giveUpMarkReady (token : Int32)
  | isReady
  | tryLock (failed : Bool)

/-- One section.  The lock may be given up for its timeout, and `tryLock` may fail, at any time. -/
def next (s : ReadinessFlag) : Section → ReadinessFlag
  | .subscribe => if s.ready then s else { s with subscribing := s.subscribing + 1 }
  | .lockTokens =>
    if s.subscribing = 0 ∨ s.locked then s
    else { s with subscribing := s.subscribing - 1, locked := !s.ready }
  | .insertToken =>
    if !s.locked then s
    else if s.nextId ≠ 0 ∧ s.nextId ∉ s.tokens then
      { s with
        nextId := s.nextId + 1, tokens := s.nextId :: s.tokens, locked := false
        handedOut := s.nextId :: s.handedOut }
    else { s with nextId := s.nextId + 1 }
  | .giveUpSubscribe => { s with subscribing := s.subscribing - 1 }
  | .markReady token =>
    if s.ready ∨ token = 0 then s else { s with marking := token :: s.marking }
  | .removeToken token =>
    if token ∉ s.marking ∨ s.locked then s
    else if token ∈ s.tokens then
      { s with
        marking := s.marking.erase token, ready := true, tokens := []
        marked := token :: s.marked }
    else { s with marking := s.marking.erase token }
  | .giveUpMarkReady token => { s with marking := s.marking.erase token }
  | .isReady => if s.ready then s else { s with querying := s.querying + 1 }
  | .tryLock failed =>
    if s.querying = 0 then s
    else if failed ∨ s.locked ∨ s.tokens ≠ [] then { s with querying := s.querying - 1 }
    else { s with querying := s.querying - 1, ready := true }

/-- What holds between the sections. -/
structure Inv (s : ReadinessFlag) : Prop where
  spent : s.ready = true → s.tokens = [] ∧ s.locked = false
  waiting : s.handedOut ≠ [] → s.ready = false → s.tokens ≠ []
  tokens : ∀ token ∈ s.tokens, token ∈ s.handedOut
  marked : ∀ token ∈ s.marked, token ∈ s.handedOut
  once : s.marked.length ≤ 1
  ready : s.marked ≠ [] → s.ready = true

variable {s : ReadinessFlag}

lemma Inv.next (h : s.Inv) (op : Section) : (s.next op).Inv := by
  have ⟨hspent, hwaiting, htokens, hmarked, honce, hready⟩ := h
  cases op with
  | subscribe | isReady | giveUpSubscribe | markReady token | giveUpMarkReady token =>
    simp only [ReadinessFlag.next]
    try split_ifs
    all_goals exact ⟨hspent, hwaiting, htokens, hmarked, honce, hready⟩
  | lockTokens =>
    simp only [ReadinessFlag.next]
    split_ifs
    · exact h
    · exact ⟨by grind, hwaiting, htokens, hmarked, honce, hready⟩
  | insertToken =>
    simp only [ReadinessFlag.next]
    split_ifs
    · exact h
    · constructor <;> grind
    · exact ⟨hspent, hwaiting, htokens, hmarked, honce, hready⟩
  | removeToken token =>
    simp only [ReadinessFlag.next]
    split_ifs with hblocked hmem
    · exact h
    · -- there is a token, so the flag was not ready and no call has marked it
      have hnone : s.marked = [] := by
        by_contra hne
        rw [(hspent (hready hne)).1] at hmem
        cases hmem
      exact ⟨by grind, by simp, by simp, by grind, by simp [hnone], by simp⟩
    · exact ⟨hspent, hwaiting, htokens, hmarked, honce, hready⟩
  | tryLock failed =>
    simp only [ReadinessFlag.next]
    split_ifs
    · exact h
    · exact ⟨hspent, hwaiting, htokens, hmarked, honce, hready⟩
    · constructor <;> grind

/-- In every interleaving the flag stays ready, one call at most marks it, with a token that was
handed out, and while there is such a token nothing else makes the flag ready. -/
theorem marked_once (ops : List Section) (op : Section) :
    let s := Runs.run next {} ops
    let after := s.next op
    (s.ready = true → after.ready = true) ∧
    after.marked.length ≤ 1 ∧ (∀ token ∈ after.marked, token ∈ after.handedOut) ∧
    (s.handedOut ≠ [] → s.ready = false → after.ready = true →
      ∃ token, op = .removeToken token ∧ after.marked = [token]) := by
  intro s after
  have h : s.Inv :=
    Runs.run_induction (fun _ op h => h.next op) (by constructor <;> simp) ops
  have hafter : after.Inv := h.next op
  refine ⟨?_, hafter.once, hafter.marked, ?_⟩
  · intro hready
    cases op <;> grind [next]
  · intro hout hnot hready
    have hwaiting := h.waiting hout hnot
    have hmarked := h.ready
    cases op with
    | removeToken token =>
      refine ⟨token, rfl, ?_⟩
      grind [next]
    | _ => grind [next]

end ReadinessFlag

end ExperienceCodex

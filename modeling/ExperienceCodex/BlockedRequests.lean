import Mathlib

/-!
# Blocked requests

A proxy keeps the requests it has blocked in the state that holds its configuration.  A change of
the configuration copies the records under one lock and installs them with the new configuration
under another.  What is recorded or drained in between is lost or comes back.
-/

namespace ExperienceCodex.NetworkProxy

def maxBlockedEvents : ℕ := 200

/-- A configuration with its constraints is of type `κ`, a blocked request of type `ρ`. -/
structure ConfigState (κ ρ : Type) where
  config : κ
  blocked : List ρ
  blockedTotal : ℕ

variable {κ ρ : Type}

namespace ConfigState

variable (state : ConfigState κ ρ)

/-- The oldest records go when there are too many. -/
def recordBlocked (entry : ρ) : ConfigState κ ρ :=
  { state with
    blocked := (state.blocked ++ [entry]).rtake maxBlockedEvents
    blockedTotal := state.blockedTotal + 1 }

def drainBlocked : List ρ × ConfigState κ ρ := (state.blocked, { state with blocked := [] })

/-- The new state has the records, but not their number. -/
def forceReload (config : κ) : ConfigState κ ρ := { state with config, blockedTotal := 0 }

def replaceConfigState (config : κ) : ConfigState κ ρ := { state with config }

end ConfigState

/-- A locked section of one of the callers.  `reloadIfNeeded` and `updateDomainList` install what
they have copied when they took the read lock. -/
inductive Section (κ ρ : Type) where
  | recordBlocked (entry : ρ)
  | drainBlocked
  | blockedSnapshot
  | copy (caller : ℕ)
  | reloadIfNeeded (caller : ℕ) (config : κ)
  | updateDomainList (caller : ℕ) (config : κ)
  | forceReload (config : κ)
  | replaceConfigState (config : κ)

/-- The state, what the callers have copied, and what has been recorded and drained. -/
structure Proxy (κ ρ : Type) where
  state : ConfigState κ ρ
  copies : ℕ → ConfigState κ ρ
  recorded : List ρ
  drained : List ρ

variable [DecidableEq κ]

def Proxy.next (p : Proxy κ ρ) : Section κ ρ → Proxy κ ρ
  | .recordBlocked entry =>
    { p with state := p.state.recordBlocked entry, recorded := p.recorded ++ [entry] }
  | .drainBlocked =>
    { p with state := p.state.drainBlocked.2, drained := p.drained ++ p.state.drainBlocked.1 }
  | .blockedSnapshot => p
  | .copy caller => { p with copies := Function.update p.copies caller p.state }
  | .reloadIfNeeded caller config => { p with state := { p.copies caller with config } }
  | .updateDomainList caller config =>
    -- Only the configuration is compared before the install.
    if p.state.config ≠ (p.copies caller).config then p
    else { p with state := { p.copies caller with config } }
  | .forceReload config => { p with state := p.state.forceReload config }
  | .replaceConfigState config => { p with state := p.state.replaceConfigState config }

/-- A proxy that has blocked nothing. -/
def Proxy.start (config : κ) : Proxy κ ρ where
  state := ⟨config, [], 0⟩
  copies _ := ⟨config, [], 0⟩
  recorded := []
  drained := []

/-- The records that a section installs are those of the state. -/
def Current (p : Proxy κ ρ) : Section κ ρ → Prop
  | .reloadIfNeeded caller _ =>
    (p.copies caller).blocked = p.state.blocked ∧
      (p.copies caller).blockedTotal = p.state.blockedTotal
  | .updateDomainList caller _ => p.state.config = (p.copies caller).config →
    (p.copies caller).blocked = p.state.blocked ∧
      (p.copies caller).blockedTotal = p.state.blockedTotal
  | .forceReload _ => p.state.blockedTotal = 0
  | _ => True

/-- Nothing is recorded or drained between a copy and its install, and no reload is forced once
something has been recorded. -/
def Undisturbed (p : Proxy κ ρ) : List (Section κ ρ) → Prop
  | [] => True
  | e :: sections => Current p e ∧ Undisturbed (p.next e) sections

/-- After each section the total is the number of records, it has not decreased, and nothing was
drained more often than it was recorded. -/
def RecordsConserved (p : Proxy κ ρ) : List (Section κ ρ) → Prop
  | [] => True
  | e :: sections =>
    (p.next e).state.blockedTotal = (p.next e).recorded.length ∧
      p.state.blockedTotal ≤ (p.next e).state.blockedTotal ∧
      (p.next e).drained.Sublist (p.next e).recorded ∧ RecordsConserved (p.next e) sections

/-- The total counts the records, and each of them was drained or is there at most once. -/
structure Inv (p : Proxy κ ρ) : Prop where
  total : p.state.blockedTotal = p.recorded.length
  once : (p.drained ++ p.state.blocked).Sublist p.recorded

variable {p : Proxy κ ρ}

lemma Inv.next (h : Inv p) {e : Section κ ρ} (hcur : Current p e) : Inv (p.next e) := by
  cases e with
  | recordBlocked entry =>
    refine ⟨by simp [Proxy.next, ConfigState.recordBlocked, h.total], ?_⟩
    have hkept : ((p.state.blocked ++ [entry]).rtake maxBlockedEvents).Sublist
        (p.state.blocked ++ [entry]) := List.drop_sublist _ _
    have hall := h.once.append (List.Sublist.refl [entry])
    rw [List.append_assoc] at hall
    simp only [Proxy.next, ConfigState.recordBlocked]
    exact (hkept.append_left p.drained).trans hall
  | drainBlocked => exact ⟨h.total, by simpa [Proxy.next, ConfigState.drainBlocked] using h.once⟩
  | blockedSnapshot => exact h
  | copy caller => exact ⟨h.total, h.once⟩
  | reloadIfNeeded caller config =>
    exact ⟨hcur.2.trans h.total, by simpa [Proxy.next, hcur.1] using h.once⟩
  | updateDomainList caller config =>
    rw [Proxy.next]
    split_ifs with hmoved
    · exact h
    · obtain ⟨hblocked, htotal⟩ := hcur (not_not.mp hmoved)
      exact ⟨htotal.trans h.total, by simpa [hblocked] using h.once⟩
  | forceReload config => exact ⟨hcur.symm.trans h.total, h.once⟩
  | replaceConfigState config => exact ⟨h.total, h.once⟩

lemma length_recorded_le_next (p : Proxy κ ρ) (e : Section κ ρ) :
    p.recorded.length ≤ (p.next e).recorded.length := by
  cases e with
  | updateDomainList caller config =>
    rw [Proxy.next]
    split_ifs <;> rfl
  | recordBlocked entry => simp [Proxy.next]
  | _ => exact le_rfl

lemma Inv.recordsConserved (h : Inv p) {sections : List (Section κ ρ)}
    (hcur : Undisturbed p sections) : RecordsConserved p sections := by
  induction sections generalizing p with
  | nil => trivial
  | cons e sections ih =>
    have hnext := h.next hcur.1
    refine ⟨hnext.total, ?_, (List.sublist_append_left _ _).trans hnext.once, ih hnext hcur.2⟩
    rw [h.total, hnext.total]
    exact length_recorded_le_next p e

/-- Records are conserved where no section comes between a copy and its install. -/
theorem records_conserved (config : κ) (sections : List (Section κ ρ))
    (h : Undisturbed (.start config) sections) : RecordsConserved (.start config) sections :=
  Inv.recordsConserved ⟨rfl, .refl _⟩ h

/-- A request is recorded before the copy, and drained after the install. -/
theorem records_conserved_small :
    RecordsConserved (.start 0)
      [.recordBlocked 'a', .copy 0, .updateDomainList 0 1, .drainBlocked, .recordBlocked 'b'] :=
  records_conserved 0 _ ⟨trivial, trivial, fun _ => ⟨rfl, rfl⟩, trivial, trivial, trivial⟩

/-- A reload loses what is recorded after its copy, and brings back what is drained after it; a
forced reload forgets the number. -/
theorem records_not_conserved :
    ¬ RecordsConserved (.start 0) [.copy 0, .recordBlocked 'a', .reloadIfNeeded 0 1] ∧
      ¬ RecordsConserved (.start 0)
        [.recordBlocked 'a', .copy 0, .drainBlocked, .updateDomainList 0 1, .drainBlocked] ∧
      ¬ RecordsConserved (.start 0) [.recordBlocked 'a', .forceReload 1] := by
  refine ⟨fun h => ?_, fun h => ?_, fun h => ?_⟩
  · obtain ⟨-, -, -, -, -, -, htotal, -⟩ := h
    exact absurd htotal (by decide)
  · obtain ⟨-, -, -, -, -, -, -, -, -, -, -, -, -, -, hdrained, -⟩ := h
    exact absurd hdrained (by decide)
  · obtain ⟨-, -, -, htotal, -⟩ := h
    exact absurd htotal (by decide)

end ExperienceCodex.NetworkProxy

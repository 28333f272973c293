import Mathlib

/-!
# Programs that may fail

A program works on a state and ends with a result or an error; what it has changed before an error
stays.  `Ends` says what holds at its end in both cases, and the rules below take a program apart
along its text.
-/

namespace ExperienceCodex.Programs

variable {ε σ α β : Type}

/-- From a state the program ends with a result for which `onOk` holds of the state then, or with
an error for which `onError` does. -/
def Ends (m : EStateM ε σ α) (s : σ) (onOk : α → σ → Prop) (onError : ε → σ → Prop) : Prop :=
  match m.run s with
  | .ok a after => onOk a after
  | .error e after => onError e after

variable {m : EStateM ε σ α} {s : σ} {onOk onOk' : α → σ → Prop} {onError onError' : ε → σ → Prop}

lemma ends_pure {a : α} (h : onOk a s) : Ends (pure a) s onOk onError := h

lemma ends_throw {e : ε} (h : onError e s) : Ends (throw e) s onOk onError := h

lemma ends_bind {next : α → EStateM ε σ β} {onOk : β → σ → Prop}
    (h : Ends m s (fun a after => Ends (next a) after onOk onError) onError) :
    Ends (m >>= next) s onOk onError := by
  unfold Ends at h ⊢
  rw [EStateM.run_bind]
  cases hm : m.run s with
  | ok a after =>
    rw [hm] at h
    exact h
  | error e after =>
    rw [hm] at h
    exact h

lemma ends_get_bind {next : σ → EStateM ε σ β} {onOk : β → σ → Prop}
    (h : Ends (next s) s onOk onError) : Ends (get >>= next) s onOk onError :=
  ends_bind h

lemma ends_set {after : σ} {onOk : PUnit → σ → Prop} (h : onOk () after) :
    Ends (set after) s onOk onError := h

lemma ends_modify {change : σ → σ} {onOk : PUnit → σ → Prop} (h : onOk () (change s)) :
    Ends (modify change) s onOk onError := h

lemma Ends.mono (h : Ends m s onOk onError) (hok : ∀ a after, onOk a after → onOk' a after)
    (herr : ∀ e after, onError e after → onError' e after) : Ends m s onOk' onError' := by
  unfold Ends at h ⊢
  cases hm : m.run s with
  | ok a after =>
    rw [hm] at h
    exact hok a after h
  | error e after =>
    rw [hm] at h
    exact herr e after h

/-- Ends with an error, or goes on with the value. -/
def orFail : Except ε α → EStateM ε σ α
  | .ok a => pure a
  | .error e => throw e

lemma ends_orFail {r : Except ε α} (hok : ∀ a, r = .ok a → onOk a s)
    (herr : ∀ e, r = .error e → onError e s) : Ends (orFail r) s onOk onError := by
  cases r with
  | ok a => exact ends_pure (hok a rfl)
  | error e => exact ends_throw (herr e rfl)

/-- What each item keeps, with the items behind it to come, holds after all of them. -/
theorem ends_forM {onOk : PUnit → σ → Prop} (Inv : List β → σ → Prop) {body : β → EStateM ε σ PUnit}
    (hstep : ∀ item items s, Inv (item :: items) s →
      Ends (body item) s (fun _ => Inv items) onError)
    {items : List β} (h : Inv items s) (hok : ∀ s, Inv [] s → onOk () s) :
    Ends (items.forM body) s onOk onError := by
  induction items generalizing s with
  | nil => exact ends_pure (hok s h)
  | cons item items ih =>
    exact ends_bind ((hstep item items s h).mono (fun _ _ => ih) fun _ _ h => h)

/-- What holds at the end of a program, whether it fails or not. -/
abbrev Leads (m : EStateM ε σ α) (s : σ) (P : σ → Prop) : Prop :=
  Ends m s (fun _ => P) fun _ => P

section
variable {next : α → EStateM ε σ β} {P Q : σ → Prop}

lemma Ends.leads_bind (h : Ends m s onOk fun _ => Q) (herr : ∀ after, Q after → P after)
    (hnext : ∀ a after, onOk a after → Leads (next a) after P) : Leads (m >>= next) s P :=
  ends_bind (h.mono hnext fun _ => herr)

/-- A part that changes nothing when it fails. -/
lemma Ends.guards (h : Ends m s onOk fun _ after => after = s) (hs : P s)
    (hnext : ∀ a after, onOk a after → Leads (next a) after P) : Leads (m >>= next) s P :=
  h.leads_bind (fun _ heq => heq ▸ hs) hnext

lemma Ends.leads (h : Ends m s onOk fun _ after => after = s) (hs : P s)
    (hok : ∀ a after, onOk a after → P after) : Leads m s P :=
  h.mono hok fun _ _ heq => heq ▸ hs

/-- What holds at the end of a program that does not fail. -/
abbrev Yields (m : EStateM ε σ α) (s : σ) (onOk : α → σ → Prop) : Prop :=
  Ends m s onOk fun _ _ => True

lemma Ends.yields (h : Ends m s onOk onError) (hok : ∀ a after, onOk a after → onOk' a after) :
    Yields m s onOk' :=
  h.mono hok fun _ _ _ => trivial

lemma Ends.yields_bind {onOk' : β → σ → Prop} (h : Ends m s onOk onError)
    (hnext : ∀ a after, onOk a after → Yields (next a) after onOk') :
    Yields (m >>= next) s onOk' :=
  ends_bind (h.yields hnext)

end

/-- What holds at the end when the result is known. -/
lemma Ends.of_ok {a : α} {after : σ} (h : Ends m s onOk onError) (hrun : m.run s = .ok a after) :
    onOk a after := by
  unfold Ends at h
  rwa [hrun] at h

lemma Ends.of_error {e : ε} {after : σ} (h : Ends m s onOk onError)
    (hrun : m.run s = .error e after) : onError e after := by
  unfold Ends at h
  rwa [hrun] at h

/-- A program that cannot fail ends with a result. -/
lemma Ends.exists_ok (h : Ends m s onOk fun _ _ => False) :
    ∃ a after, m.run s = .ok a after ∧ onOk a after := by
  unfold Ends at h
  cases hm : m.run s with
  | ok a after =>
    rw [hm] at h
    exact ⟨a, after, rfl, h⟩
  | error e after =>
    rw [hm] at h
    exact h.elim

/-- The state in which a program leaves off. -/
def finalState (m : EStateM ε σ α) (s : σ) : σ :=
  match m.run s with
  | .ok _ after => after
  | .error _ after => after

/-- What holds at both ends holds of the final state. -/
lemma Ends.final {P : σ → Prop} (h : Leads m s P) : P (finalState m s) := by
  unfold Leads Ends at h
  unfold finalState
  cases hm : m.run s with
  | ok a after =>
    rw [hm] at h
    exact h
  | error e after =>
    rw [hm] at h
    exact h

-- Programs are taken apart by the rules above and never run by the elaborator.
attribute [irreducible] Ends

end ExperienceCodex.Programs

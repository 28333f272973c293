import ExperienceCodex.Runs

/-!
# Sessions of the exec server

A connection owns a session until it detaches, and a timer then removes the session unless another
connection has resumed it.  The sections that hold a lock are the steps here: a resume holds the
lock of the registry over four of them, and a detach may come between any two.
-/

namespace ExperienceCodex.ExecServer

/-- How far a resume is: past the expiry check, past the check for an owner, notifications set. -/
inductive Stage where
  | unexpired
  | vacant
  | routed

/-- The task of a detach, with the attaches so far and the time then. -/
structure Timer (κ : Type) where
  connection : κ
  attaches : ℕ
  start : ℕ
deriving DecidableEq

/-- One session, with the clock, the resume under way, the connections that have asked for it, and
the timers. -/
structure Session (κ : Type) where
  current : Option κ
  detached : Option κ := none
  expiresAt : Option ℕ := none
  sender : Option κ
  removed : Bool := false
  now : ℕ := 0
  resuming : Option (κ × Stage) := none
  known : List κ
  attaches : ℕ := 0
  timers : List (Timer κ) := []

inductive Section (κ : Type) where
  | resume (c : κ)
  | proceed
  | detach (c : κ)
  | expire (timer : Timer κ)
  | wait (time : ℕ)

namespace Session

open List

variable {κ : Type} [DecidableEq κ] {ttl : ℕ} {s : Session κ}

def start (c : κ) : Session κ := { current := some c, sender := some c, known := [c] }

def isExpired (s : Session κ) : Bool := s.expiresAt.any (· ≤ s.now)

/-- One section.  The identifier of a connection is new. -/
def next (ttl : ℕ) (s : Session κ) : Section κ → Session κ
  | .resume c =>
    if s.removed ∨ s.resuming.isSome ∨ c ∈ s.known then s
    else if s.isExpired then { s with removed := true }
    else { s with resuming := some (c, .unexpired), known := c :: s.known }
  | .proceed =>
    match s.resuming with
    | none => s
    | some (c, .unexpired) =>
      { s with resuming := if s.current.isSome then none else some (c, .vacant) }
    | some (c, .vacant) => { s with sender := some c, resuming := some (c, .routed) }
    | some (c, .routed) =>
      { s with
        current := some c, detached := none, expiresAt := none, resuming := none
        attaches := s.attaches + 1 }
  | .detach c =>
    if s.current = some c then
      { s with
        sender := none, current := none, detached := some c, expiresAt := some (s.now + ttl)
        timers := ⟨c, s.attaches, s.now⟩ :: s.timers }
    else s
  | .expire timer =>
    if timer ∈ s.timers ∧ s.resuming.isNone ∧ s.current = none ∧
        s.detached = some timer.connection ∧ s.isExpired then { s with removed := true }
    else s
  | .wait time => { s with now := s.now + time }

/-- What holds between the sections. -/
structure Owned (ttl : ℕ) (s : Session κ) : Prop where
  sender : ∀ c, s.current = some c → s.sender = some c ∧ s.expiresAt = none ∧ c ∈ s.known ∧
    ∀ timer ∈ s.timers, timer.connection ≠ c
  resuming : ∀ c stage, s.resuming = some (c, stage) → s.current ≠ some c ∧ c ∈ s.known ∧
    (∀ timer ∈ s.timers, timer.connection ≠ c) ∧ (stage ≠ .unexpired → s.current = none) ∧
    (stage = .routed → s.sender = some c)
  known : ∀ timer ∈ s.timers, timer.connection ∈ s.known
  due : s.expiresAt ≠ none → ∃ timer ∈ s.timers, s.detached = some timer.connection
  timers : ∀ timer ∈ s.timers, s.detached = some timer.connection →
    timer.attaches = s.attaches ∧ s.expiresAt = some (timer.start + ttl)

lemma Owned.next (h : Owned ttl s) (op : Section κ) : Owned ttl (s.next ttl op) := by
  have ⟨hsender, hresuming, hknown, hdue, htimers⟩ := h
  cases op with
  | resume c =>
    simp only [Session.next]
    split_ifs with hrefused hexpired
    · exact h
    · exact ⟨hsender, hresuming, hknown, hdue, htimers⟩
    · -- the connection is new, so it is neither attached nor the one of a timer
      obtain ⟨-, -, hnew⟩ : ¬ s.removed = true ∧ ¬ s.resuming.isSome = true ∧ c ∉ s.known := by
        simpa using hrefused
      refine ⟨by grind, ?_, by grind, hdue, htimers⟩
      rintro c' stage heq
      cases heq
      exact ⟨fun hc => hnew (hsender c hc).2.2.1, by simp, fun t ht hc => hnew (hc ▸ hknown t ht),
        by simp, by simp⟩
  | proceed =>
    simp only [Session.next]
    split
    · exact h
    · next c hstage =>
      obtain ⟨hne, hc, hfree, -⟩ := hresuming c _ hstage
      refine ⟨hsender, fun other stage heq => ?_, hknown, hdue, htimers⟩
      split_ifs at heq with howner
      cases heq
      exact ⟨hne, hc, hfree, fun _ => by simpa using howner, nofun⟩
    · exact ⟨by grind, by grind, hknown, hdue, htimers⟩
    · exact ⟨by grind, nofun, hknown, nofun, nofun⟩
  | detach c =>
    simp only [Session.next]
    split_ifs with hc
    · obtain ⟨-, -, hmem, hfree⟩ := hsender c hc
      refine ⟨nofun, fun other stage heq => ?_, by grind, fun _ => ⟨_, mem_cons_self, rfl⟩,
        by grind⟩
      obtain ⟨hne, hother, hfree', hvacant, -⟩ := hresuming other stage heq
      -- a resume that has found the session vacant would have kept it so
      have hstage : stage = .unexpired := by
        by_contra hstage
        cases hc.symm.trans (hvacant hstage)
      subst hstage
      exact ⟨nofun, hother, forall_mem_cons.mpr ⟨fun heq => hne (heq ▸ hc), hfree'⟩,
        absurd rfl, nofun⟩
    · exact h
  | expire timer =>
    simp only [Session.next]
    split_ifs
    · exact ⟨hsender, hresuming, hknown, hdue, htimers⟩
    · exact h
  | wait time => exact ⟨hsender, hresuming, hknown, hdue, htimers⟩

omit [DecidableEq κ] in
/-- The timer of the last detach, when the time is up. -/
lemma Owned.time_up (h : Owned ttl s) (hexpired : s.isExpired = true) {timer : Timer κ}
    (hmem : timer ∈ s.timers) (hlast : s.detached = some timer.connection) :
    timer.attaches = s.attaches ∧ timer.start + ttl ≤ s.now := by
  obtain ⟨hattaches, hexpires⟩ := h.timers timer hmem hlast
  refine ⟨hattaches, ?_⟩
  simpa [isExpired, hexpires] using hexpired

/-- In every interleaving the notifications go to the connection that is attached, no other takes
its place, and a session is removed only when nothing has attached since the detach that started the
timer, and the time is up. -/
theorem owned_until_detached (ttl : ℕ) (first : κ) (ops : List (Section κ)) (op : Section κ) :
    let s := Runs.run (next ttl) (start first) ops
    let after := s.next ttl op
    (∀ c, s.current = some c →
      s.sender = some c ∧ ∀ other, after.current = some other → other = c) ∧
    (s.removed = false → after.removed = true → ∃ timer ∈ s.timers,
      (∀ other, op = .expire other → other = timer) ∧ timer.attaches = s.attaches ∧
        timer.start + ttl ≤ s.now) := by
  intro s after
  have h : Owned ttl s :=
    Runs.run_induction (fun _ op h => h.next op) (by constructor <;> simp [start]) ops
  refine ⟨fun c hc => ⟨(h.sender c hc).1, fun other hother => ?_⟩, fun hthere hremoved => ?_⟩
  · cases op with
    | proceed =>
      simp only [after, next] at hother
      split at hother
      · grind
      · grind
      · grind
      · next c' hstage => cases hc.symm.trans ((h.resuming c' .routed hstage).2.2.2.1 nofun)
    | _ =>
      simp only [after, next] at hother
      grind
  · cases op with
    | resume c =>
      have hexpired : s.isExpired = true := by
        simp only [after, next] at hremoved
        grind
      obtain ⟨timer, hmem, hlast⟩ := h.due (by rintro heq; simp [isExpired, heq] at hexpired)
      exact ⟨timer, hmem, nofun, h.time_up hexpired hmem hlast⟩
    | expire timer =>
      simp only [after, next] at hremoved
      split_ifs at hremoved with hdue
      · obtain ⟨hmem, -, -, hlast, hexpired⟩ := hdue
        exact ⟨timer, hmem, fun _ heq => (Section.expire.inj heq).symm,
          h.time_up hexpired hmem hlast⟩
      · simp [hthere] at hremoved
    | _ =>
      simp only [after, next] at hremoved
      grind

end Session

end ExperienceCodex.ExecServer

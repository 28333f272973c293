import ExperienceCodex.UndoLog

/-!
# Facts about files

Operations on files, as they change the nodes of a tree without links when they succeed, and three
kinds of facts: something is at a place, nothing is there, or a file with a certain content.  The
library says which facts an operation establishes, and which of the facts that hold before it still
hold after it.
-/

namespace ExperienceCodex.FileFacts

open FileTree UndoLog

variable {N α : Type} [DecidableEq N]

inductive Op (N α : Type) where
  /-- A file is put at a place, in directories that are made for it. -/
  | put (l : Loc N) (content : α)
  | makeDir (l : Loc N)
  | move (source target : Loc N)
  | remove (l : Loc N)
  | read

/-- The nodes after an operation that succeeded. -/
def Op.apply : Op N α → Nodes N α → Nodes N α
  | .put l content, work => fun k =>
    if k = l then some (.file content) else if k <+: l then some .dir else work k
  | .makeDir l, work => fun k => if k <+: l then some .dir else work k
  | .move source target, work =>
    if source = target then work
    else fun k =>
      if target <+: k then work (source ++ k.drop target.length)
      else if source <+: k then none
      else if k <+: target then some .dir
      else work k
  | .remove l, work => fun k => if k = l then none else work k
  | .read, work => work

/-- No file stands above a place. -/
def Open (work : Nodes N α) (l : Loc N) : Prop :=
  ∀ k, k <+: l → k ≠ l → contentAt work k = none

/-- What is known when an operation has succeeded. -/
def Op.Fits : Op N α → Nodes N α → Prop
  | .put l _, work => Open work l
  | .makeDir l, work => Open work l ∧ contentAt work l = none
  | .move source target, work =>
    work source ≠ none ∧
      (source ≠ target → Open work target ∧ ¬ source <+: target ∧ ¬ target <+: source ∧
        ∀ below, below ≠ [] → work (target ++ below) = none)
  | .remove _, _ => True
  | .read, _ => True

inductive Fact (N α : Type) where
  | present (l : Loc N)
  | absent (l : Loc N)
  | content (l : Loc N) (value : α)

def Fact.Holds (work : Nodes N α) : Fact N α → Prop
  | .present l => work l ≠ none
  | .absent l => work l = none
  | .content l value => work l = some (.file value)

/-- The facts that an operation is for. -/
def Op.gives : Op N α → List (Fact N α)
  | .put l content => [.present l, .content l content]
  | .makeDir l => [.present l]
  | .move source target => [.absent source, .present target]
  | .remove l => [.absent l]
  | .read => []

/-- What is moved goes to another place. -/
def Op.Moves : Op N α → Prop
  | .move source target => source ≠ target
  | _ => True

/-- An operation keeps a fact. -/
def Op.Keeps : Op N α → Nodes N α → Fact N α → Prop
  | .put l _, _, .absent p => ¬ p <+: l
  | .put l content, _, .content p value => p = l → content = value
  | .makeDir l, _, .absent p => ¬ p <+: l
  | .move source target, _, .present p => source ≠ target → ¬ source <+: p
  | .move source target, work, .absent p =>
    source ≠ target →
      ¬ p <+: target ∧ (target <+: p → work (source ++ p.drop target.length) = none)
  | .move source target, work, .content p value =>
    source ≠ target → ¬ source <+: p ∧ (p = target → work source = some (.file value))
  | .remove l, _, .present p => p ≠ l
  | .remove l, _, .content p _ => p ≠ l
  | _, _, _ => True

section
variable {op : Op N α} {work : Nodes N α} {fact : Fact N α}

/-- The facts that an operation is for hold after it, unless it moves something to where it is. -/
theorem Op.gives_hold_iff (hfits : op.Fits work) :
    (∀ fact ∈ op.gives, fact.Holds (op.apply work)) ↔ op.Moves := by
  cases op with
  | put l v => simp [gives, Fact.Holds, apply, Moves]
  | makeDir l => simp [gives, Fact.Holds, apply, Moves]
  | remove l => simp [gives, Fact.Holds, apply, Moves]
  | read => simp [gives, Moves]
  | move src tgt =>
    obtain ⟨hex, hfits⟩ := hfits
    by_cases hsame : src = tgt
    · -- What stands there is said to be gone.
      simp [gives, Fact.Holds, apply, Moves, hsame, hsame ▸ hex]
    · obtain ⟨-, -, hnotTarget, -⟩ := hfits hsame
      simp [gives, Fact.Holds, apply, Moves, hsame, hnotTarget, hex]

lemma put_keeps_iff {l : Loc N} {content : α} (hopen : Open work l) (hfact : fact.Holds work) :
    fact.Holds ((Op.put l content).apply work) ↔ (Op.put l content).Keeps work fact := by
  cases fact with
  | present p =>
    have hsome : (Op.put l content).apply work p ≠ none := by
      simp only [Op.apply]
      split_ifs
      · simp
      · simp
      · exact hfact
    exact iff_of_true hsome trivial
  | absent p =>
    change (Op.put l content).apply work p = none ↔ ¬ p <+: l
    unfold Op.apply
    have hnone : work p = none := hfact
    by_cases hp : p = l
    · simp [hp]
    · by_cases hbeg : p <+: l
      · simp [hp, hbeg]
      · simp [hp, hbeg, hnone]
  | content p value =>
    change (Op.put l content).apply work p = some (.file value) ↔ (p = l → content = value)
    unfold Op.apply
    have hfile : work p = some (.file value) := hfact
    by_cases hp : p = l
    · simp [hp]
    · have hnot : ¬ p <+: l := by
        intro hbeg
        have hnone := hopen p hbeg hp
        rw [contentAt_eq_some_iff.mpr hfile] at hnone
        cases hnone
      simp [hp, hnot, hfile]

lemma makeDir_keeps_iff {l : Loc N} (hopen : Open work l) (hfree : contentAt work l = none)
    (hfact : fact.Holds work) :
    fact.Holds ((Op.makeDir l : Op N α).apply work) ↔ (Op.makeDir l).Keeps work fact := by
  cases fact with
  | present p =>
    have hsome : (Op.makeDir l : Op N α).apply work p ≠ none := by
      simp only [Op.apply]
      split_ifs
      · simp
      · exact hfact
    exact iff_of_true hsome trivial
  | absent p =>
    change (Op.makeDir l : Op N α).apply work p = none ↔ ¬ p <+: l
    unfold Op.apply
    have hnone : work p = none := hfact
    by_cases hbeg : p <+: l
    · simp [hbeg]
    · simp [hbeg, hnone]
  | content p value =>
    have hfile : work p = some (.file value) := hfact
    have hnot : ¬ p <+: l := by
      intro hbeg
      have hnone : contentAt work p = none := by
        by_cases hp : p = l
        · rw [hp, hfree]
        · exact hopen p hbeg hp
      rw [contentAt_eq_some_iff.mpr hfile] at hnone
      cases hnone
    have hkept : (Op.makeDir l : Op N α).apply work p = some (.file value) := by
      simp [Op.apply, hnot, hfile]
    exact iff_of_true hkept trivial

lemma move_keeps_iff {src target : Loc N} (hfits : (Op.move src target).Fits work)
    (hfact : fact.Holds work) :
    fact.Holds ((Op.move src target).apply work) ↔ (Op.move src target).Keeps work fact := by
  by_cases hsame : src = target
  · -- Nothing happens.
    cases fact <;> simpa [Op.apply, Op.Keeps, hsame] using hfact
  obtain ⟨hex, hfits⟩ := hfits
  obtain ⟨hopen, hnotSource, hnotTarget, hfree⟩ := hfits hsame
  -- What stands at or below the target is at the target.
  have hplace : ∀ p, work p ≠ none → target <+: p → p = target := by
    rintro p hp ⟨below, rfl⟩
    by_contra hne
    refine hp (hfree below ?_)
    rintro rfl
    exact hne (List.append_nil target)
  have happly (p : Loc N) : (Op.move src target).apply work p =
      if target <+: p then work (src ++ p.drop target.length)
      else if src <+: p then none
      else if p <+: target then some .dir
      else work p := by
    simp [Op.apply, hsame]
  cases fact with
  | present p =>
    have hsome : work p ≠ none := hfact
    simp only [Fact.Holds, Op.Keeps, happly, ne_eq, hsame, not_false_eq_true, true_imp_iff]
    by_cases htgt : target <+: p
    · rw [hplace p hsome htgt]
      simp [hex, hnotSource]
    · by_cases hsrc : src <+: p
      · simp [htgt, hsrc]
      · by_cases habove : p <+: target
        · simp [htgt, hsrc, habove]
        · simp [htgt, hsrc, habove, hsome]
  | absent p =>
    have hnone : work p = none := hfact
    simp only [Fact.Holds, Op.Keeps, happly, ne_eq, hsame, not_false_eq_true, true_imp_iff]
    by_cases htgt : target <+: p
    · by_cases habove : p <+: target
      · rw [habove.eq_of_length_le htgt.length_le]
        simp [hex]
      · simp [htgt, habove]
    · by_cases hsrc : src <+: p
      · have habove : ¬ p <+: target := fun habove => hnotSource (hsrc.trans habove)
        simp [htgt, hsrc, habove]
      · by_cases habove : p <+: target
        · simp [htgt, hsrc, habove]
        · simp [htgt, hsrc, habove, hnone]
  | content p value =>
    have hfile : work p = some (.file value) := hfact
    simp only [Fact.Holds, Op.Keeps, happly, ne_eq, hsame, not_false_eq_true, true_imp_iff]
    by_cases htgt : target <+: p
    · rw [hplace p (by rw [hfile]; simp) htgt]
      simp [hnotSource]
    · have hne : p ≠ target := by
        rintro rfl
        exact htgt List.prefix_rfl
      by_cases hsrc : src <+: p
      · simp [htgt, hsrc]
      · have habove : ¬ p <+: target := by
          intro habove
          have hnone := hopen p habove hne
          rw [contentAt_eq_some_iff.mpr hfile] at hnone
          cases hnone
        simp [htgt, hsrc, habove, hne, hfile]

lemma remove_keeps_iff {l : Loc N} (hfact : fact.Holds work) :
    fact.Holds ((Op.remove l : Op N α).apply work) ↔ (Op.remove l).Keeps work fact := by
  cases fact with
  | present p =>
    have hsome : work p ≠ none := hfact
    by_cases hp : p = l
    · simp [Fact.Holds, Op.apply, Op.Keeps, hp]
    · simp [Fact.Holds, Op.apply, Op.Keeps, hp, hsome]
  | absent p =>
    have hnone : work p = none := hfact
    simp [Fact.Holds, Op.apply, Op.Keeps, hnone]
  | content p value =>
    have hfile : work p = some (.file value) := hfact
    by_cases hp : p = l
    · simp [Fact.Holds, Op.apply, Op.Keeps, hp]
    · simp [Fact.Holds, Op.apply, Op.Keeps, hp, hfile]

/-- A fact that holds before an operation holds after it exactly when the operation keeps it. -/
theorem Op.keeps_iff (hfits : op.Fits work) (hfact : fact.Holds work) :
    fact.Holds (op.apply work) ↔ op.Keeps work fact := by
  cases op with
  | put l v => exact put_keeps_iff hfits hfact
  | makeDir l => exact makeDir_keeps_iff hfits.1 hfits.2 hfact
  | move src tgt => exact move_keeps_iff hfits hfact
  | remove l => exact remove_keeps_iff hfact
  | read => exact iff_of_true hfact (by cases fact <;> trivial)

end

end ExperienceCodex.FileFacts

import Mathlib

/-!
# Planned edits

Edits of a map are planned one by one against the map as it is, and then done one after the other.
Each edit has its own key, but a move may write the key of another edit.

The edits do what was planned exactly when the plans agree wherever two of them are about one key,
and a change that finds the value of a move at its key, which the plans say is its own value, can
be done on it again, with no effect unless another move follows.
-/

namespace ExperienceCodex.PlannedEdits

open List Option Function

/-- One edit of a map.  A change is done on the value that is there, and may be impossible. -/
inductive Edit (K V : Type) where
  | put (key : K) (value : V)
  | drop (key : K)
  | change (key : K) (f : V → Option V)
  | move (key target : K) (f : V → Option V)

section
variable {K V : Type}

namespace Edit

def key : Edit K V → K
  | put key _ | drop key | change key _ | move key _ _ => key

/-- The key that a move writes. -/
def onto : Edit K V → Option K
  | move _ target _ => some target
  | _ => none

def Touches (edit : Edit K V) (place : K) : Prop :=
  edit.key = place ∨ edit.onto = some place

/-- What an edit says of the values at the end, planned against the values at the start. -/
def marks (start : K → Option V) : Edit K V → List (K × Option V)
  | put key value => [(key, some value)]
  | drop key => [(key, none)]
  | change key f => [(key, (start key).bind f)]
  | move key target f => [(target, (start key).bind f), (key, none)]

/-- The edit is possible at the start. -/
def Possible (start : K → Option V) : Edit K V → Prop
  | change key f | move key _ f => (start key).bind f ≠ none
  | _ => True

/-- Does an edit. -/
def apply [DecidableEq K] (map : K → Option V) : Edit K V → Option (K → Option V)
  | put key value => some (Function.update map key (some value))
  | drop key => some (Function.update map key none)
  | change key f =>
    ((map key).bind f).map fun value => Function.update map key (some value)
  | move key target f =>
    ((map key).bind f).map fun value =>
      Function.update (Function.update map target (some value)) key none

end Edit

/-- Does the edits one after the other. -/
def run [DecidableEq K] (map : K → Option V) (edits : List (Edit K V)) :
    Option (K → Option V) :=
  edits.foldlM Edit.apply map

variable {start map map' final : K → Option V} {edit : Edit K V} {edits : List (Edit K V)}
  {place : K} {value : Option V}

lemma exists_eq_move (h : edit.onto = some place) :
    ∃ key f, edit = .move key place f := by
  cases edit with
  | move key target f =>
    obtain rfl : target = place := some_inj.mp h
    exact ⟨key, f, rfl⟩
  | _ => cases h

lemma touches_iff_exists_mark :
    edit.Touches place ↔ ∃ value, (place, value) ∈ edit.marks start := by
  cases edit with
  | move key target f =>
    simp only [Edit.Touches, Edit.key, Edit.onto, Edit.marks, some_inj, mem_cons,
      Prod.mk.injEq, not_mem_nil, or_false]
    constructor
    · rintro (rfl | rfl)
      · exact ⟨none, .inr ⟨rfl, rfl⟩⟩
      · exact ⟨_, .inl ⟨rfl, rfl⟩⟩
    · rintro ⟨value, ⟨rfl, -⟩ | ⟨rfl, -⟩⟩
      · exact .inr rfl
      · exact .inl rfl
  | _ => simp [Edit.Touches, Edit.key, Edit.onto, Edit.marks, eq_comm]

variable [DecidableEq K]

variable {before : List (Edit K V)} {after : List (Edit K V)}

lemma run_append :
    run map (before ++ after) = (run map before).bind fun middle => run middle after := by
  rw [run, foldlM_append]
  rfl

lemma run_concat :
    run map (before ++ [edit]) = (run map before).bind edit.apply := by
  rw [run_append]
  cases run map before with
  | none => rfl
  | some middle => simp [run]

lemma apply_of_not_touches (h : edit.apply map = some map') (hplace : ¬ edit.Touches place) :
    map' place = map place := by
  cases edit with
  | put key value =>
    obtain rfl := some_inj.mp h
    exact update_of_ne (fun heq => hplace (.inl heq.symm)) ..
  | drop key =>
    obtain rfl := some_inj.mp h
    exact update_of_ne (fun heq => hplace (.inl heq.symm)) ..
  | change key f =>
    obtain ⟨value, -, rfl⟩ := map_eq_some_iff.mp h
    exact update_of_ne (fun heq => hplace (.inl heq.symm)) ..
  | move key target f =>
    obtain ⟨value, -, rfl⟩ := map_eq_some_iff.mp h
    have hkey : place ≠ key := fun heq => hplace (.inl heq.symm)
    have htgt : place ≠ target := fun heq => hplace (.inr (congrArg some heq.symm))
    rw [update_of_ne hkey, update_of_ne htgt]

lemma run_of_not_touches (h : run map edits = some map')
    (hplace : ∀ edit ∈ edits, ¬ edit.Touches place) : map' place = map place := by
  induction edits generalizing map with
  | nil =>
    obtain rfl := some_inj.mp h
    rfl
  | cons edit edits ih =>
    rw [run, foldlM_cons] at h
    obtain ⟨middle, hmid, h⟩ := bind_eq_some_iff.mp h
    rw [ih h (forall_mem_of_forall_mem_cons hplace),
      apply_of_not_touches hmid (hplace edit mem_cons_self)]

/-- Every edit has its own key and is possible at the start. -/
structure Planned (start : K → Option V) (edits : List (Edit K V)) : Prop where
  nodup : (edits.map Edit.key).Nodup
  possible : ∀ edit ∈ edits, edit.Possible start

/-- No two edits say different things of one key. -/
def Agree (start : K → Option V) (edits : List (Edit K V)) : Prop :=
  ∀ edit ∈ edits, ∀ other ∈ edits, ∀ place value value',
    (place, value) ∈ edit.marks start → (place, value') ∈ other.marks start → value = value'

/-- A change behind a move onto its key can be done on its own result. -/
def Again (start : K → Option V) (edits : List (Edit K V)) : Prop :=
  ∀ before key f after, edits = before ++ .change key f :: after →
    (∃ edit ∈ before, edit.onto = some key) →
    ∃ value, ((start key).bind f).bind f = some value ∧
      ((start key).bind f = some value ∨ ∃ edit ∈ after, edit.onto = some key)

/-- The values are those that were planned, and other values are as they were. -/
structure AsPlanned (start : K → Option V) (edits : List (Edit K V)) (final : K → Option V) :
    Prop where
  marked : ∀ edit ∈ edits, ∀ place value, (place, value) ∈ edit.marks start → final place = value
  kept : ∀ place, (∀ edit ∈ edits, ¬ edit.Touches place) → final place = start place

omit [DecidableEq K] in
lemma key_ne_of_nodup
    (h : ((before ++ edit :: after).map Edit.key).Nodup) :
    (∀ other ∈ before, other.key ≠ edit.key) ∧ ∀ other ∈ after, other.key ≠ edit.key := by
  rw [map_append, map_cons, nodup_append, nodup_cons] at h
  refine ⟨fun other hother => ?_, fun other hother heq => ?_⟩
  · exact h.2.2 _ (mem_map_of_mem hother) _ mem_cons_self
  · exact h.2.1.1 (heq ▸ mem_map_of_mem hother)

section
variable {before after : List (Edit K V)}
  (hplanned : Planned start edits) (hagree : Agree start edits)
  (hsplit : edits = before ++ edit :: after)
include hplanned hagree hsplit

/-- A move finds the value of the start at its key. -/
lemma map_key_of_move {key target : K} {f : V → Option V} (hedit : edit = .move key target f)
    (hrun : run start before = some map) : map key = start key := by
  subst hedit hsplit
  refine run_of_not_touches hrun fun other hother => ?_
  rintro (hkey | honto)
  · exact (key_ne_of_nodup hplanned.nodup).1 other hother hkey
  · have hedit : Edit.move key target f ∈ before ++ .move key target f :: after := by simp
    have hnone : (key, none) ∈ (Edit.move key target f).marks start := by simp [Edit.marks]
    obtain ⟨first, g, rfl⟩ := exists_eq_move honto
    exact hplanned.possible _ (mem_append_left _ hother)
      (hagree _ (mem_append_left _ hother) _ hedit key _ none mem_cons_self hnone)

end

lemma map_of_onto (hplanned : Planned start edits)
    (hagree : Agree start edits) (hbefore : before <+: edits)
    (hrun : run start before = some map) (hkeys : ∀ edit ∈ before, edit.key ≠ place)
    (hval : ∀ edit ∈ before, edit.onto = some place → (place, value) ∈ edit.marks start)
    (hex : ∃ edit ∈ before, edit.onto = some place) : map place = value := by
  induction before using reverseRecOn generalizing map with
  | nil =>
    obtain ⟨edit, hedit, -⟩ := hex
    cases hedit
  | append_singleton before edit ih =>
    obtain ⟨rest, hrest⟩ := hbefore
    rw [append_assoc, singleton_append] at hrest
    rw [run_concat] at hrun
    obtain ⟨middle, hmid, happly⟩ := bind_eq_some_iff.mp hrun
    by_cases honto : edit.onto = some place
    · obtain ⟨key, f, rfl⟩ := exists_eq_move honto
      have hkey : place ≠ key := (hkeys (.move key place f) (by simp)).symm
      have hstart : middle key = start key :=
        map_key_of_move hplanned hagree hrest.symm rfl hmid
      obtain ⟨written, hwritten, rfl⟩ := map_eq_some_iff.mp happly
      have hmark := hval _ (by simp) honto
      simp only [Edit.marks, mem_cons, Prod.mk.injEq, not_mem_nil, or_false, true_and,
        hkey, false_and] at hmark
      rw [update_of_ne hkey, update_self, hmark, ← hwritten, hstart]
    · have hplace : ¬ edit.Touches place := by
        rintro (hkey | h)
        · exact hkeys edit (by simp) hkey
        · exact honto h
      rw [apply_of_not_touches happly hplace]
      refine ih ⟨edit :: rest, hrest⟩ hmid (fun other hother => hkeys other (by simp [hother]))
        (fun other hother => hval other (by simp [hother])) ?_
      obtain ⟨other, hother, h⟩ := hex
      rcases mem_append.mp hother with hother | hother
      · exact ⟨other, hother, h⟩
      · rw [mem_singleton.mp hother] at h
        exact absurd h honto

section
variable {before after : List (Edit K V)} {key : K} {f : V → Option V}
  (hplanned : Planned start edits) (hsplit : edits = before ++ .change key f :: after)
include hplanned hsplit

/-- A change finds the value of the start, unless a move has written its key. -/
lemma map_key_of_change (hrun : run start before = some map)
    (hnone : ∀ edit ∈ before, edit.onto ≠ some key) : map key = start key := by
  refine run_of_not_touches hrun fun other hother htouches => ?_
  subst hsplit
  exact hnone other hother
    (htouches.resolve_left ((key_ne_of_nodup hplanned.nodup).1 other hother))

/-- Behind a move onto its key a change finds its own result. -/
lemma map_key_of_change_again (hagree : Agree start edits) (hrun : run start before = some map)
    (hex : ∃ edit ∈ before, edit.onto = some key) : map key = (start key).bind f := by
  have hchange : Edit.change key f ∈ edits := by simp [hsplit]
  refine map_of_onto hplanned hagree ⟨_, hsplit.symm⟩ hrun ?_ ?_ hex
  · intro other hother
    have hnodup := hplanned.nodup
    rw [hsplit] at hnodup
    exact (key_ne_of_nodup hnodup).1 other hother
  · intro other hother honto
    have hmem : other ∈ edits := by simp [hsplit, hother]
    have htouches : other.Touches key := .inr honto
    obtain ⟨value, hval⟩ : ∃ value, (key, value) ∈ other.marks start :=
      touches_iff_exists_mark.mp htouches
    have hown : (key, (start key).bind f) ∈ (Edit.change key f).marks start := by
      simp [Edit.marks]
    rwa [hagree other hmem _ hchange key _ _ hval hown] at hval

end

lemma exists_run (hplanned : Planned start edits) (hagree : Agree start edits)
    (hagain : Again start edits) (hbefore : before <+: edits) :
    ∃ map, run start before = some map := by
  induction before using reverseRecOn with
  | nil => exact ⟨start, rfl⟩
  | append_singleton before edit ih =>
    obtain ⟨rest, hrest⟩ := hbefore
    rw [append_assoc, singleton_append] at hrest
    obtain ⟨map, hmap⟩ := ih ⟨edit :: rest, hrest⟩
    have hpossible := hplanned.possible edit (by simp [← hrest])
    rw [run_concat, hmap, bind_some]
    cases edit with
    | put key value => exact ⟨_, rfl⟩
    | drop key => exact ⟨_, rfl⟩
    | move key target f =>
      obtain ⟨value, hval⟩ := ne_none_iff_exists'.mp hpossible
      rw [← map_key_of_move hplanned hagree hrest.symm rfl hmap] at hval
      exact ⟨_, by rw [Edit.apply, hval, map_some]⟩
    | change key f =>
      by_cases hex : ∃ other ∈ before, other.onto = some key
      · obtain ⟨value, hval, -⟩ := hagain before key f rest hrest.symm hex
        rw [← map_key_of_change_again hplanned hrest.symm hagree hmap hex] at hval
        exact ⟨_, by rw [Edit.apply, hval, map_some]⟩
      · have hnone : ∀ other ∈ before, other.onto ≠ some key := fun other hother honto =>
          hex ⟨other, hother, honto⟩
        obtain ⟨value, hval⟩ := ne_none_iff_exists'.mp hpossible
        rw [← map_key_of_change hplanned hrest.symm hmap hnone] at hval
        exact ⟨_, by rw [Edit.apply, hval, map_some]⟩

lemma exists_last {α : Type} {P : α → Prop} {items : List α} (h : ∃ item ∈ items, P item) :
    ∃ before item after, items = before ++ item :: after ∧ P item ∧ ∀ other ∈ after, ¬ P other := by
  induction items using reverseRecOn with
  | nil =>
    obtain ⟨item, hitem, -⟩ := h
    cases hitem
  | append_singleton items last ih =>
    by_cases hlast : P last
    · exact ⟨items, last, [], rfl, hlast, by simp⟩
    · obtain ⟨item, hitem, hP⟩ := h
      rcases mem_append.mp hitem with hitem | hitem
      · obtain ⟨before, found, after, rfl, hfound, hafter⟩ := ih ⟨item, hitem, hP⟩
        refine ⟨before, found, after ++ [last], by simp, hfound, ?_⟩
        exact forall_mem_append.mpr ⟨hafter, forall_mem_singleton.mpr hlast⟩
      · rw [mem_singleton.mp hitem] at hP
        exact absurd hP hlast

/-- The last edit that touches a key leaves there what it says. -/
lemma exists_mark_of_last (hplanned : Planned start edits)
    (hagree : Agree start edits) (hagain : Again start edits)
    (hsplit : edits = before ++ edit :: after) (hrun : run start before = some map)
    (happly : edit.apply map = some map') (htouches : edit.Touches place)
    (hafter : ∀ other ∈ after, ¬ other.Touches place) :
    (place, map' place) ∈ edit.marks start := by
  cases edit with
  | put key value =>
    obtain rfl : key = place := htouches.resolve_right (by simp [Edit.onto])
    obtain rfl := some_inj.mp happly
    simp [Edit.marks]
  | drop key =>
    obtain rfl : key = place := htouches.resolve_right (by simp [Edit.onto])
    obtain rfl := some_inj.mp happly
    simp [Edit.marks]
  | change key f =>
    obtain rfl : key = place := htouches.resolve_right (by simp [Edit.onto])
    obtain ⟨value, hval, rfl⟩ := map_eq_some_iff.mp happly
    rw [update_self, Edit.marks, mem_singleton, Prod.mk.injEq, ← hval]
    refine ⟨rfl, ?_⟩
    by_cases hex : ∃ other ∈ before, other.onto = some key
    · obtain ⟨again, hagain, hsame | ⟨other, hother, honto⟩⟩ :=
        hagain before key f after hsplit hex
      · rw [map_key_of_change_again hplanned hsplit hagree hrun hex, hagain, hsame]
      · exact absurd (.inr honto) (hafter other hother)
    · have hnone : ∀ other ∈ before, other.onto ≠ some key := fun other hother honto =>
        hex ⟨other, hother, honto⟩
      rw [map_key_of_change hplanned hsplit hrun hnone]
  | move key target f =>
    obtain ⟨value, hval, rfl⟩ := map_eq_some_iff.mp happly
    by_cases hkey : place = key
    · simp [Edit.marks, hkey]
    · obtain rfl : target = place := by
        rcases htouches with h | h
        · exact absurd h.symm hkey
        · exact some_inj.mp h
      rw [update_of_ne hkey, update_self, ← hval,
        map_key_of_move hplanned hagree hsplit rfl hrun]
      simp [Edit.marks]

/-- Edits do what was planned exactly when the plans agree and each change behind a move onto its
key can be done again. -/
theorem asPlanned_iff (hplanned : Planned start edits) :
    (∃ final, run start edits = some final ∧ AsPlanned start edits final) ↔
      Agree start edits ∧ Again start edits := by
  constructor
  · rintro ⟨final, hrun, hfinal⟩
    have hagree : Agree start edits := by
      intro edit hedit other hother place value value' hval hvalue'
      rw [← hfinal.marked edit hedit place value hval,
        ← hfinal.marked other hother place value' hvalue']
    refine ⟨hagree, ?_⟩
    intro before key f after hsplit hex
    rw [hsplit, run_append] at hrun
    obtain ⟨map, hmap, hrun⟩ := bind_eq_some_iff.mp hrun
    rw [run, foldlM_cons] at hrun
    obtain ⟨map', happly, hrun⟩ := bind_eq_some_iff.mp hrun
    obtain ⟨value, hval, rfl⟩ := map_eq_some_iff.mp happly
    rw [map_key_of_change_again hplanned hsplit hagree hmap hex] at hval
    refine ⟨value, hval, ?_⟩
    by_cases hlater : ∃ edit ∈ after, edit.onto = some key
    · exact .inr hlater
    · -- the value stays to the end
      have hnodup := hplanned.nodup
      rw [hsplit] at hnodup
      have huntouched : ∀ other ∈ after, ¬ other.Touches key := by
        rintro other hother (hkey | honto)
        · exact (key_ne_of_nodup hnodup).2 other hother hkey
        · exact hlater ⟨other, hother, honto⟩
      have hkept : final key = some value := by
        rw [run_of_not_touches hrun huntouched, update_self]
      have hchange : Edit.change key f ∈ edits := by simp [hsplit]
      rw [← hkept, hfinal.marked _ hchange key _ mem_cons_self]
      exact .inl rfl
  · rintro ⟨hagree, hagain⟩
    obtain ⟨final, hrun⟩ := exists_run hplanned hagree hagain prefix_rfl
    refine ⟨final, hrun, ?_, fun place hplace => run_of_not_touches hrun hplace⟩
    intro edit hedit place value hval
    obtain ⟨before, last, after, hsplit, htouches, hafter⟩ :=
      exists_last (P := fun edit : Edit K V => edit.Touches place)
        ⟨edit, hedit, touches_iff_exists_mark.mpr ⟨value, hval⟩⟩
    have hlast : last ∈ edits := by simp [hsplit]
    rw [hsplit, run_append] at hrun
    obtain ⟨map, hmap, hrun⟩ := bind_eq_some_iff.mp hrun
    rw [run, foldlM_cons] at hrun
    obtain ⟨map', happly, hrun⟩ := bind_eq_some_iff.mp hrun
    have hmark := exists_mark_of_last hplanned hagree hagain hsplit hmap happly htouches hafter
    rw [run_of_not_touches hrun hafter]
    exact hagree last hlast edit hedit place _ value hmark hval

end

end ExperienceCodex.PlannedEdits

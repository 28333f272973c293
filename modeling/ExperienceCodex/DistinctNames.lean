import Mathlib

/-!
# Distinct names

Things are told apart by a key.  Of the things with one key the first is kept, the things that are
kept are put in the order of their keys, and one after the other they get a name that none of those
before has got.  The order of the things does not matter if their keys are distinct.
-/

namespace ExperienceCodex.DistinctNames

open List

variable {α κ : Type}

section
variable [DecidableEq κ] (key : α → κ)

/-- The first thing of each key that was not seen before. -/
def firstsFrom : List κ → List α → List α
  | _, [] => []
  | seen, a :: rest =>
    if key a ∈ seen then firstsFrom seen rest else a :: firstsFrom (key a :: seen) rest

def firsts (things : List α) : List α := firstsFrom key [] things

variable {key} {seen : List κ} {things : List α}

lemma mem_of_mem_firstsFrom {a : α} (h : a ∈ firstsFrom key seen things) :
    a ∈ things ∧ key a ∉ seen := by
  induction things generalizing seen with
  | nil => cases h
  | cons b rest ih =>
    rw [firstsFrom] at h
    split at h
    · exact ⟨mem_cons_of_mem b (ih h).1, (ih h).2⟩
    · next hseen =>
      rcases mem_cons.mp h with rfl | hrest
      · exact ⟨mem_cons_self, hseen⟩
      · exact ⟨mem_cons_of_mem b (ih hrest).1,
          fun hmem => (ih hrest).2 (mem_cons_of_mem _ hmem)⟩

lemma nodup_firstsFrom (seen : List κ) (things : List α) :
    ((firstsFrom key seen things).map key).Nodup := by
  induction things generalizing seen with
  | nil => exact nodup_nil
  | cons a rest ih =>
    rw [firstsFrom]
    split
    · exact ih seen
    · rw [map_cons, nodup_cons]
      refine ⟨?_, ih _⟩
      intro hmem
      obtain ⟨b, hb, hkey⟩ := mem_map.mp hmem
      apply (mem_of_mem_firstsFrom hb).2
      rw [hkey]
      exact mem_cons_self

lemma exists_firstsFrom {a : α} (ha : a ∈ things) (hseen : key a ∉ seen) :
    ∃ b ∈ firstsFrom key seen things, key b = key a := by
  induction things generalizing seen with
  | nil => cases ha
  | cons c rest ih =>
    rw [firstsFrom]
    split
    · next hc =>
      rcases mem_cons.mp ha with rfl | hrest
      · exact absurd hc hseen
      · exact ih hrest hseen
    · by_cases hkey : key a = key c
      · exact ⟨c, mem_cons_self, hkey.symm⟩
      · rcases mem_cons.mp ha with rfl | hrest
        · exact absurd rfl hkey
        · have hnot : key a ∉ key c :: seen := by
            rw [mem_cons]
            exact not_or.mpr ⟨hkey, hseen⟩
          obtain ⟨b, hb, hba⟩ := ih hrest hnot
          exact ⟨b, mem_cons_of_mem c hb, hba⟩

lemma mem_of_mem_firsts {a : α} (h : a ∈ firsts key things) : a ∈ things :=
  (mem_of_mem_firstsFrom h).1

lemma nodup_firsts (things : List α) : ((firsts key things).map key).Nodup :=
  nodup_firstsFrom [] things

lemma exists_firsts {a : α} (ha : a ∈ things) : ∃ b ∈ firsts key things, key b = key a :=
  exists_firstsFrom ha not_mem_nil

lemma firstsFrom_of_nodup (hnodup : (things.map key).Nodup) (hseen : ∀ a ∈ things, key a ∉ seen) :
    firstsFrom key seen things = things := by
  induction things generalizing seen with
  | nil => rfl
  | cons a rest ih =>
    rw [map_cons, nodup_cons] at hnodup
    rw [firstsFrom, if_neg (hseen a mem_cons_self)]
    congr 1
    apply ih hnodup.2
    intro b hb hmem
    rcases mem_cons.mp hmem with hkey | hmem
    · exact hnodup.1 (hkey ▸ mem_map_of_mem hb)
    · exact hseen b (mem_cons_of_mem a hb) hmem

/-- With distinct keys nothing is left out. -/
lemma firsts_of_nodup (h : (things.map key).Nodup) : firsts key things = things :=
  firstsFrom_of_nodup h fun _ _ => not_mem_nil

end

section
variable [LinearOrder κ] (key : α → κ)

def sortBy (things : List α) : List α :=
  things.mergeSort fun a b => decide (key a ≤ key b)

variable {key} {things others : List α}

lemma sortBy_perm (things : List α) : (sortBy key things).Perm things :=
  mergeSort_perm things _

lemma pairwise_sortBy (things : List α) :
    (sortBy key things).Pairwise fun a b => key a ≤ key b := by
  have htrans : ∀ a b c : α, decide (key a ≤ key b) = true → decide (key b ≤ key c) = true →
      decide (key a ≤ key c) = true := by
    intro a b c hab hbc
    exact decide_eq_true ((of_decide_eq_true hab).trans (of_decide_eq_true hbc))
  have htotal : ∀ a b : α, (decide (key a ≤ key b) || decide (key b ≤ key a)) = true := by
    intro a b
    simpa using le_total (key a) (key b)
  exact (pairwise_mergeSort htrans htotal things).imp fun h => of_decide_eq_true h

/-- Things with distinct keys have one order. -/
lemma sortBy_eq_of_perm (hnodup : (things.map key).Nodup) (hperm : others.Perm things) :
    sortBy key others = sortBy key things := by
  have hwhole : (sortBy key others).Perm (sortBy key things) :=
    (sortBy_perm others).trans (hperm.trans (sortBy_perm things).symm)
  apply hwhole.eq_of_pairwise _ (pairwise_sortBy others) (pairwise_sortBy things)
  intro a b ha hb hab hba
  have hthings : b ∈ things := (sortBy_perm things).mem_iff.mp hb
  have hothers : a ∈ things := hperm.mem_iff.mp ((sortBy_perm others).mem_iff.mp ha)
  exact inj_on_of_nodup_map hnodup hothers hthings (le_antisymm hab hba)

end

section
variable {β : Type} [DecidableEq κ] [DecidableEq β]

/-- The keys of the things that have a value. -/
def keysOf (value : α → β) (key : α → κ) (things : List α) (b : β) : List κ :=
  ((things.filter fun a => value a = b).map key).dedup

/-- Things of more than one key have the value. -/
def isShared (value : α → β) (key : α → κ) (things : List α) (b : β) : Bool :=
  decide (1 < (keysOf value key things b).length)

lemma isShared_of_perm (value : α → β) (key : α → κ) {things others : List α}
    (h : others.Perm things) : isShared value key others = isShared value key things := by
  funext b
  have hkeys : (keysOf value key others b).Perm (keysOf value key things b) :=
    ((h.filter _).map key).dedup
  rw [isShared, isShared, hkeys.length_eq]

end

section
variable {β ν : Type} (choose : List ν → α → Option β) (name : β → ν)

/-- Each thing in turn is given what is chosen for it under the names used before. -/
def assign : List ν → List α → Option (List β)
  | _, [] => some []
  | used, a :: rest =>
    (choose used a).bind fun b => (assign (name b :: used) rest).map fun named => b :: named

/-- Whatever was chosen so far, something can be chosen for the next thing. -/
def Serves : List ν → List α → Prop
  | _, [] => True
  | used, a :: rest =>
    (∃ b, choose used a = some b) ∧ ∀ b, choose used a = some b → Serves (name b :: used) rest

variable {choose name} {used : List ν} {things : List α} {named : List β}

lemma assign_cons {a : α} {rest : List α} (h : assign choose name used (a :: rest) = some named) :
    ∃ b more, choose used a = some b ∧ assign choose name (name b :: used) rest = some more ∧
      named = b :: more := by
  obtain ⟨b, hb, hrest⟩ := Option.bind_eq_some_iff.mp h
  obtain ⟨more, hmore, hnamed⟩ := Option.map_eq_some_iff.mp hrest
  exact ⟨b, more, hb, hmore, hnamed.symm⟩

lemma exists_assign (h : Serves choose name used things) :
    ∃ named, assign choose name used things = some named := by
  induction things generalizing used with
  | nil => exact ⟨[], rfl⟩
  | cons a rest ih =>
    obtain ⟨⟨b, hb⟩, hrest⟩ := h
    obtain ⟨more, hmore⟩ := ih (hrest b hb)
    refine ⟨b :: more, ?_⟩
    rw [assign, hb, Option.bind_some, hmore, Option.map_some]

/-- What holds of each choice holds of each thing and what it is given. -/
lemma forall₂_assign {P : α → β → Prop} (hchoose : ∀ used a b, choose used a = some b → P a b)
    (h : assign choose name used things = some named) : List.Forall₂ P things named := by
  induction things generalizing used named with
  | nil =>
    cases h
    exact .nil
  | cons a rest ih =>
    obtain ⟨b, more, hb, hmore, rfl⟩ := assign_cons h
    exact .cons (hchoose used a b hb) (ih hmore)

lemma exists_choose_of_mem {b : β} (hb : b ∈ named)
    (h : assign choose name used things = some named) :
    ∃ before, ∃ a ∈ things, choose before a = some b := by
  induction things generalizing used named with
  | nil =>
    cases h
    cases hb
  | cons a rest ih =>
    obtain ⟨c, more, hc, hmore, rfl⟩ := assign_cons h
    rcases mem_cons.mp hb with rfl | hb
    · exact ⟨used, a, mem_cons_self, hc⟩
    · obtain ⟨before, d, hd, hchoose⟩ := ih hb hmore
      exact ⟨before, d, mem_cons_of_mem a hd, hchoose⟩

/-- No name is used twice. -/
lemma nodup_assign (hchoose : ∀ used a b, choose used a = some b → name b ∉ used)
    (h : assign choose name used things = some named) :
    (named.map name).Nodup ∧ ∀ b ∈ named, name b ∉ used := by
  induction things generalizing used named with
  | nil =>
    cases h
    exact ⟨nodup_nil, forall_mem_nil _⟩
  | cons a rest ih =>
    obtain ⟨b, more, hb, hmore, rfl⟩ := assign_cons h
    obtain ⟨hnodup, hfresh⟩ := ih hmore
    refine ⟨?_, ?_⟩
    · rw [map_cons, nodup_cons]
      refine ⟨?_, hnodup⟩
      intro hmem
      obtain ⟨c, hc, hname⟩ := mem_map.mp hmem
      apply hfresh c hc
      rw [hname]
      exact mem_cons_self
    · intro c hc hmem
      rcases mem_cons.mp hc with rfl | hc
      · exact hchoose used a c hb hmem
      · exact hfresh c hc (mem_cons_of_mem _ hmem)

end

end ExperienceCodex.DistinctNames

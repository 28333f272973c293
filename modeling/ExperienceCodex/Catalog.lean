import Mathlib

/-!
# Indexed catalogs

A catalog keeps a list of items in insertion order together with two secondary indexes: the
position of each key, and for each bucket the keys of the items in it.  Items are added by
`push`, which updates both indexes, and after any other change the indexes are rebuilt from the
items by `ofItems`.

The invariant `Catalog.Wf` says that the indexes are those of a rebuild and that keys are
distinct.  Under it every indexed answer is the answer of a linear scan of the items.
-/

namespace ExperienceCodex

open List Std

/-- Items with a position index and a bucket index. -/
structure Catalog (α κ τ : Type) [Ord κ] [Ord τ] where
  items : List α
  byKey : ExtTreeMap κ ℕ
  byBucket : ExtTreeMap τ (List κ)

namespace Catalog

section
variable {α κ τ : Type} [Ord κ] [TransOrd κ] [Ord τ] [TransOrd τ]

def empty : Catalog α κ τ := ⟨[], ∅, ∅⟩

/-- The item at the indexed position of a key. -/
def lookup (c : Catalog α κ τ) (k : κ) : Option α :=
  c.byKey[k]?.bind fun position => c.items[position]?

/-- The keys that are listed in a bucket. -/
def listed (c : Catalog α κ τ) (t : τ) : List κ := c.byBucket[t]?.getD []

/-- The items of a bucket that satisfy `p`, each found through its key. -/
def select (c : Catalog α κ τ) (t : τ) (p : α → Bool) : List α :=
  (c.listed t).filterMap fun k => (c.lookup k).filter p

variable (key : α → κ) (bucket : α → Option τ)

/-- Append an item and extend both indexes. -/
def push (c : Catalog α κ τ) (a : α) : Catalog α κ τ where
  items := c.items ++ [a]
  byKey := c.byKey.insert (key a) c.items.length
  byBucket :=
    match bucket a with
    | none => c.byBucket
    | some t => c.byBucket.insert t (c.listed t ++ [key a])

/-- The catalog of a list of items, with its indexes built from scratch. -/
def ofItems (items : List α) : Catalog α κ τ := items.foldl (push key bucket) empty

/-- The indexes are those of a rebuild, and no key occurs twice. -/
structure Wf (c : Catalog α κ τ) : Prop where
  indexed : c = ofItems key bucket c.items
  nodup : (c.items.map key).Nodup

lemma ofItems_concat (items : List α) (a : α) :
    ofItems key bucket (items ++ [a]) = push key bucket (ofItems key bucket items) a := by
  simp [ofItems]

@[simp] theorem items_ofItems (items : List α) : (ofItems key bucket items).items = items := by
  induction items using reverseRecOn with
  | nil => rfl
  | append_singleton items a ih => rw [ofItems_concat, push, ih]

section
variable [LawfulEqOrd κ] [DecidableEq κ]

/-- A key is indexed at exactly the position of its item. -/
theorem byKey_ofItems_eq_some_iff {items : List α} (h : (items.map key).Nodup) (k : κ)
    (i : ℕ) :
    (ofItems key bucket items).byKey[k]? = some i ↔
      ∃ a, items[i]? = some a ∧ key a = k := by
  induction items using reverseRecOn with
  | nil => simp [ofItems, empty]
  | append_singleton items a ih =>
    rw [map_append, nodup_append] at h
    obtain ⟨hitems, -, hfresh⟩ := h
    simp only [ofItems_concat, push, ExtTreeMap.getElem?_insert, Std.compare_eq_iff_eq,
      items_ofItems]
    by_cases hk : key a = k
    · rw [if_pos hk]
      constructor
      · intro hpos
        cases hpos
        exact ⟨a, getElem?_concat_length, hk⟩
      · rintro ⟨b, hb, hbk⟩
        rw [getElem?_append] at hb
        split_ifs at hb with hlt
        · have hmem : key b ∈ items.map key := mem_map_of_mem (mem_of_getElem? hb)
          exact absurd (hbk.trans hk.symm) (hfresh (key b) hmem (key a) (by simp))
        · have hzero : i - items.length = 0 := by
            by_contra hne
            rw [getElem?_eq_none] at hb
            · cases hb
            · simp only [length_singleton]
              omega
          congr 1
          omega
    · rw [if_neg hk, ih hitems]
      constructor
      · rintro ⟨b, hb, hbk⟩
        refine ⟨b, ?_, hbk⟩
        have hlt := (List.getElem?_eq_some_iff.mp hb).1
        rwa [List.getElem?_append_left hlt]
      · rintro ⟨b, hb, hbk⟩
        refine ⟨b, ?_, hbk⟩
        rw [getElem?_append] at hb
        split_ifs at hb with hlt
        · exact hb
        · have hba : b = a := by simpa using mem_of_getElem? hb
          exact absurd (hba ▸ hbk) hk

end

section
variable [LawfulEqOrd τ] [DecidableEq τ]

lemma listed_push (c : Catalog α κ τ) (a : α) (t : τ) :
    (push key bucket c a).listed t =
      if bucket a = some t then c.listed t ++ [key a] else c.listed t := by
  cases h : bucket a with
  | none => simp [listed, push, h]
  | some t' =>
    by_cases ht : t' = t
    · subst ht
      simp [listed, push, h]
    · simp [listed, push, h, ExtTreeMap.getElem?_insert, ht]

/-- A bucket lists the keys of its items in insertion order. -/
theorem listed_ofItems (items : List α) (t : τ) :
    (ofItems key bucket items).listed t =
      (items.filter fun a => bucket a = some t).map key := by
  induction items using reverseRecOn with
  | nil => simp [ofItems, empty, listed]
  | append_singleton items a ih =>
    rw [ofItems_concat, listed_push, ih, filter_append, map_append]
    by_cases h : bucket a = some t
    · simp [h]
    · simp [h]

end

section
variable {key bucket} [LawfulEqOrd κ] [DecidableEq κ]

variable {c : Catalog α κ τ}

section
variable (h : c.Wf key bucket)
include h

/-- The lookup finds the item with the key, and nothing else. -/
theorem Wf.lookup_eq_some_iff (k : κ) (a : α) :
    c.lookup k = some a ↔ a ∈ c.items ∧ key a = k := by
  rw [lookup, Option.bind_eq_some_iff]
  constructor
  · rintro ⟨i, hpos, ha⟩
    rw [h.indexed, byKey_ofItems_eq_some_iff key bucket h.nodup] at hpos
    obtain ⟨b, hb, hbk⟩ := hpos
    rw [hb] at ha
    cases ha
    exact ⟨mem_of_getElem? hb, hbk⟩
  · rintro ⟨hmem, hk⟩
    obtain ⟨i, hpos⟩ := getElem?_of_mem hmem
    refine ⟨i, ?_, hpos⟩
    rw [h.indexed, byKey_ofItems_eq_some_iff key bucket h.nodup]
    exact ⟨a, hpos, hk⟩

lemma Wf.lookup_eq_none_iff (k : κ) :
    c.lookup k = none ↔ k ∉ c.items.map key := by
  rw [Option.eq_none_iff_forall_not_mem, mem_map]
  constructor
  · rintro hnone ⟨a, ha, hk⟩
    exact hnone a ((h.lookup_eq_some_iff k a).mpr ⟨ha, hk⟩)
  · intro hnone a ha
    exact hnone ⟨a, (h.lookup_eq_some_iff k a).mp ha⟩

/-- An indexed position is a position of the item list. -/
theorem Wf.position_spec {k : κ} {i : ℕ}
    (hpos : c.byKey[k]? = some i) :
    ∃ a, c.items[i]? = some a ∧ key a = k := by
  rw [h.indexed, byKey_ofItems_eq_some_iff key bucket h.nodup] at hpos
  exact hpos

lemma Wf.isSome_byKey_iff (k : κ) :
    c.byKey[k]?.isSome = true ↔ k ∈ c.items.map key := by
  rw [Option.isSome_iff_exists, mem_map]
  constructor
  · rintro ⟨i, hpos⟩
    obtain ⟨a, ha, hk⟩ := h.position_spec hpos
    exact ⟨a, mem_of_getElem? ha, hk⟩
  · rintro ⟨a, ha, hk⟩
    have hlook := (h.lookup_eq_some_iff k a).mpr ⟨ha, hk⟩
    obtain ⟨i, hpos, -⟩ := Option.bind_eq_some_iff.mp hlook
    exact ⟨i, hpos⟩

lemma Wf.contains_eq_false_iff (k : κ) :
    c.byKey.contains k = false ↔ k ∉ c.items.map key := by
  rw [← Bool.not_eq_true, ← ExtTreeMap.isSome_getElem?_eq_contains, h.isSome_byKey_iff]

/-- The selection through the bucket index is the linear filter of the items. -/
theorem Wf.select_eq_filter [LawfulEqOrd τ] [DecidableEq τ] (t : τ) (p : α → Bool) :
    c.select t p = c.items.filter fun a => decide (bucket a = some t) && p a := by
  have hlisted : c.listed t = (c.items.filter fun a => bucket a = some t).map key := by
    rw [h.indexed, listed_ofItems, items_ofItems]
  rw [select, hlisted, filterMap_map]
  have hfound : ∀ a ∈ c.items.filter fun a => bucket a = some t,
      ((fun k => (c.lookup k).filter p) ∘ key) a = Option.guard p a := by
    intro a ha
    rw [Function.comp_apply, (h.lookup_eq_some_iff _ a).mpr ⟨(mem_filter.mp ha).1, rfl⟩]
    rfl
  rw [filterMap_congr hfound, filterMap_eq_filter, filter_filter]
  exact filter_congr fun a _ => Bool.and_comm ..

end

end

theorem wf_ofItems {items : List α} (h : (items.map key).Nodup) :
    (ofItems key bucket items).Wf key bucket where
  indexed := by rw [items_ofItems]
  nodup := by rwa [items_ofItems]

theorem Wf.push {key : α → κ} {bucket : α → Option τ}
    (h : c.Wf key bucket) {a : α} (hfresh : key a ∉ c.items.map key) :
    (Catalog.push key bucket c a).Wf key bucket where
  indexed := by
    have hitems : (Catalog.push key bucket c a).items = c.items ++ [a] := rfl
    rw [hitems, ofItems_concat, ← h.indexed]
  nodup := by
    have hitems : (Catalog.push key bucket c a).items = c.items ++ [a] := rfl
    rw [hitems, map_append, nodup_append]
    refine ⟨h.nodup, nodup_singleton _, ?_⟩
    rintro k hk k' hk' rfl
    rw [map_singleton, mem_singleton] at hk'
    exact hfresh (hk' ▸ hk)

end

end Catalog

end ExperienceCodex

import Mathlib

/-!
# Requests and answers in a list

Some items of a list ask for an answer under a key, and some items are answers under a key.  Two
passes pair them: one puts an answer behind each request that has none, the other removes the
answers without a request, except those that may stand alone.

The passes are given as loops over positions: what is to be inserted, and what is to be removed, is
collected with its position first.
-/

namespace ExperienceCodex.Pairing

open List

section
variable {α β : Type}

/-- What is found in a list, with the positions, counted from a number on. -/
def collectFrom (f : α → Option β) : ℕ → List α → List (ℕ × β)
  | _, [] => []
  | n, x :: items =>
    match f x with
    | some b => (n, b) :: collectFrom f (n + 1) items
    | none => collectFrom f (n + 1) items

/-- Each found item is inserted behind its position, the last one first. -/
def insertBehind (items : List α) (found : List (ℕ × α)) : List α :=
  found.foldr (fun place items => items.insertIdx (place.1 + 1) place.2) items

/-- The items are kept in order, except those at the given positions. -/
def retainFrom : ℕ → List ℕ → List α → List α
  | _, _, [] => []
  | position, removed, x :: items =>
    if removed.head? = some position then retainFrom (position + 1) removed.tail items
    else x :: retainFrom (position + 1) removed items

lemma retainFrom_nil (position : ℕ) (items : List α) : retainFrom position [] items = items := by
  induction items generalizing position with
  | nil => rfl
  | cons x items ih => rw [retainFrom, head?_nil, if_neg (by simp), ih]

lemma insertIdx_append (front back : List α) (x : α) :
    (front ++ back).insertIdx front.length x = front ++ x :: back := by
  induction front with
  | nil => rfl
  | cons c front ih => simp [ih]

/-- The insertions put each found item behind the item it was found at. -/
lemma insertBehind_append (f : α → Option α) (front items : List α) :
    insertBehind (front ++ items) (collectFrom f front.length items) =
      front ++ items.flatMap fun x => x :: (f x).toList := by
  induction items generalizing front with
  | nil => simp [insertBehind, collectFrom]
  | cons x items ih =>
    have hrest := ih (front ++ [x])
    rw [append_assoc, singleton_append, length_append, length_singleton] at hrest
    rw [collectFrom, flatMap_cons]
    cases f x with
    | none =>
      dsimp only
      rw [hrest]
      simp
    | some b =>
      dsimp only
      rw [insertBehind, foldr_cons, ← insertBehind, hrest]
      have hplace := insertIdx_append (front ++ [x]) (items.flatMap fun x => x :: (f x).toList) b
      rw [length_append, length_singleton] at hplace
      rw [hplace]
      simp

lemma le_of_mem_collectFrom {f : α → Option β} {n : ℕ} {items : List α} {place : ℕ × β}
    (h : place ∈ collectFrom f n items) : n ≤ place.1 := by
  induction items generalizing n with
  | nil => exact absurd h not_mem_nil
  | cons x items ih =>
    rw [collectFrom] at h
    split at h
    · rcases mem_cons.mp h with rfl | h
      · exact Nat.le_refl n
      · exact Nat.le_of_succ_le (ih h)
    · exact Nat.le_of_succ_le (ih h)

/-- The removal of the found positions leaves the items at which nothing was found. -/
lemma retainFrom_collect (f : α → Option β) (n : ℕ) (items : List α) :
    retainFrom n ((collectFrom f n items).map Prod.fst) items =
      items.filter fun x => (f x).isNone := by
  induction items generalizing n with
  | nil => rfl
  | cons x items ih =>
    rw [retainFrom, collectFrom, filter_cons]
    cases f x with
    | some b =>
      rw [map_cons, head?_cons, if_pos rfl, tail_cons, ih]
      rfl
    | none =>
      have hhead : ((collectFrom f (n + 1) items).map Prod.fst).head? ≠ some n := by
        intro h
        obtain ⟨place, hplace, heq⟩ := mem_map.mp (mem_of_head? h)
        have hle := le_of_mem_collectFrom hplace
        omega
      dsimp only
      rw [if_neg hhead, ih]
      rfl

lemma sublist_flatMap_cons (f : α → List α) (items : List α) :
    items.Sublist (items.flatMap fun x => x :: f x) := by
  induction items with
  | nil => exact List.Sublist.refl _
  | cons x items ih =>
    rw [flatMap_cons, cons_append]
    exact (ih.trans (sublist_append_right _ _)).cons_cons x

end

/-- The parts that items play: what they ask for, what they answer, whether an answer may stand
alone, and the answer that is made up for a request.  No answer is a request. -/
structure Roles (α κ : Type) where
  request : α → Option κ
  answer : α → Option κ
  free : α → Bool
  fresh : α → κ → α
  answer_fresh : ∀ x k, answer (fresh x k) = some k
  request_eq_none : ∀ x k, answer x = some k → request x = none

namespace Roles

variable {α κ : Type} [DecidableEq κ] (roles : Roles α κ)

def requests (items : List α) : List κ := items.filterMap roles.request

def answers (items : List α) : List κ := items.filterMap roles.answer

/-- The answer that an item lacks. -/
def missing (items : List α) (x : α) : Option α :=
  (roles.request x).bind fun k => if k ∈ roles.answers items then none else some (roles.fresh x k)

/-- An answer without a request that may not stand alone. -/
def orphan (items : List α) (x : α) : Bool :=
  match roles.answer x with
  | some k => !roles.free x && decide (k ∉ roles.requests items)
  | none => false

def complete (items : List α) : List α :=
  items.flatMap fun x => x :: (roles.missing items x).toList

def prune (items : List α) : List α :=
  items.filter fun x => !roles.orphan items x

def pair (items : List α) : List α :=
  roles.prune (roles.complete items)

variable {roles} {items : List α} {x : α} {k : κ}

lemma missing_eq_some {y : α} (h : roles.missing items x = some y) :
    ∃ k, roles.request x = some k ∧ k ∉ roles.answers items ∧ y = roles.fresh x k := by
  obtain ⟨k, hk, h⟩ := Option.bind_eq_some_iff.mp h
  split_ifs at h with hanswer
  cases h
  exact ⟨k, hk, hanswer, rfl⟩

lemma mem_complete {y : α} : y ∈ roles.complete items ↔
    y ∈ items ∨ ∃ x ∈ items, roles.missing items x = some y := by
  rw [complete, mem_flatMap]
  constructor
  · rintro ⟨x, hx, hy⟩
    rcases mem_cons.mp hy with rfl | hy
    · exact .inl hx
    · exact .inr ⟨x, hx, Option.mem_toList.mp hy⟩
  · rintro (hy | ⟨x, hx, hy⟩)
    · exact ⟨y, hy, mem_cons_self⟩
    · exact ⟨x, hx, mem_cons_of_mem _ (Option.mem_toList.mpr hy)⟩

/-- The first pass makes no request. -/
lemma requests_complete : roles.requests (roles.complete items) = roles.requests items := by
  have hmissing : ∀ x, (roles.missing items x).toList.filterMap roles.request = [] := by
    intro x
    rw [filterMap_eq_nil_iff]
    intro y hy
    obtain ⟨k, -, -, rfl⟩ := missing_eq_some (Option.mem_toList.mp hy)
    exact roles.request_eq_none _ k (roles.answer_fresh x k)
  rw [requests, requests, complete, filterMap_flatMap, filterMap_eq_flatMap_toList]
  refine flatMap_congr fun x _ => ?_
  rw [filterMap_cons, hmissing]
  cases roles.request x <;> rfl

lemma orphan_iff : roles.orphan items x = true ↔
    ∃ k, roles.answer x = some k ∧ roles.free x = false ∧ k ∉ roles.requests items := by
  rw [orphan]
  cases roles.answer x with
  | none => simp
  | some k => simp

lemma orphan_congr {items' : List α} (h : roles.requests items' = roles.requests items) :
    roles.orphan items' x = roles.orphan items x := by
  rw [orphan, orphan, h]

/-- The second pass removes no request. -/
lemma requests_prune : roles.requests (roles.prune items) = roles.requests items := by
  rw [requests, requests, prune, filterMap_filter]
  refine filterMap_congr fun x _ => ?_
  cases hreq : roles.request x with
  | none => exact ite_self none
  | some k =>
    rw [orphan]
    cases hanswer : roles.answer x with
    | none => rfl
    | some other => cases hreq.symm.trans (roles.request_eq_none x other hanswer)

omit [DecidableEq κ] in
lemma mem_requests : k ∈ roles.requests items ↔ ∃ x ∈ items, roles.request x = some k :=
  mem_filterMap

omit [DecidableEq κ] in
lemma mem_answers : k ∈ roles.answers items ↔ ∃ x ∈ items, roles.answer x = some k :=
  mem_filterMap

lemma mem_answers_complete (h : k ∈ roles.requests items) :
    k ∈ roles.answers (roles.complete items) := by
  by_cases hanswer : k ∈ roles.answers items
  · obtain ⟨y, hy, hk⟩ := mem_answers.mp hanswer
    exact mem_answers.mpr ⟨y, mem_complete.mpr (.inl hy), hk⟩
  · obtain ⟨x, hx, hk⟩ := mem_requests.mp h
    have hmissing : roles.missing items x = some (roles.fresh x k) := by
      rw [missing, hk, Option.bind_some, if_neg hanswer]
    exact mem_answers.mpr ⟨_, mem_complete.mpr (.inr ⟨x, hx, hmissing⟩), roles.answer_fresh x k⟩

/-- Each request has its answer. -/
lemma mem_answers_pair (h : k ∈ roles.requests (roles.pair items)) :
    k ∈ roles.answers (roles.pair items) := by
  rw [pair, requests_prune, requests_complete] at h
  obtain ⟨y, hy, hk⟩ := mem_answers.mp (mem_answers_complete h)
  refine mem_answers.mpr ⟨y, mem_filter.mpr ⟨hy, ?_⟩, hk⟩
  have hreq : k ∈ roles.requests (roles.complete items) := by rwa [requests_complete]
  rw [orphan, hk]
  simp [hreq]

/-- Each answer that may not stand alone has its request. -/
lemma mem_requests_pair (hx : x ∈ roles.pair items) (hk : roles.answer x = some k)
    (hfree : roles.free x = false) : k ∈ roles.requests (roles.pair items) := by
  have hkept := (mem_filter.mp hx).2
  rw [pair, requests_prune]
  rw [orphan, hk] at hkept
  simpa [hfree] using hkept

/-- The items that are no orphans stay, in their order. -/
lemma sublist_pair : (items.filter fun x => !roles.orphan items x).Sublist (roles.pair items) := by
  have hsame : ∀ x, roles.orphan (roles.complete items) x = roles.orphan items x := fun x =>
    orphan_congr requests_complete
  rw [pair, prune]
  simp only [hsame]
  exact (sublist_flatMap_cons _ items).filter _

lemma complete_of_answered (h : ∀ k ∈ roles.requests items, k ∈ roles.answers items) :
    roles.complete items = items := by
  have hnone : ∀ x ∈ items, x :: (roles.missing items x).toList = [x] := by
    intro x hx
    cases hmissing : roles.missing items x with
    | none => rfl
    | some y =>
      obtain ⟨k, hk, hanswer, -⟩ := missing_eq_some hmissing
      exact absurd (h k (mem_requests.mpr ⟨x, hx, hk⟩)) hanswer
  rw [complete, flatMap_congr hnone, flatMap_singleton']

lemma prune_of_bound (h : ∀ x ∈ items, roles.orphan items x = false) : roles.prune items = items :=
  filter_eq_self.mpr fun x hx => by rw [h x hx]; rfl

/-- A paired list is left as it is. -/
lemma pair_pair : roles.pair (roles.pair items) = roles.pair items := by
  rw [pair, complete_of_answered fun k hk => mem_answers_pair hk]
  refine prune_of_bound fun x hx => ?_
  have hkept := (mem_filter.mp hx).2
  rw [Bool.not_eq_true'] at hkept
  rw [← hkept]
  exact orphan_congr requests_prune

end Roles

/-- Each key has as many elements that `f` gives it as elements that `g` gives it. -/
def Balanced {α κ : Type} [DecidableEq κ] (f g : α → Option κ) (l : List α) : Prop :=
  ∀ k, (l.filterMap f).count k = (l.filterMap g).count k

section
variable {α κ : Type} [DecidableEq κ] {f g : α → Option κ} {l : List α} {a : α} {k : κ}

lemma Balanced.symm (h : Balanced f g l) : Balanced g f l := fun k => (h k).symm

lemma Balanced.tail (h : Balanced f g (a :: l)) (hf : f a = none) (hg : g a = none) :
    Balanced f g l := by
  intro k
  have := h k
  rwa [filterMap_cons_none hf, filterMap_cons_none hg] at this

/-- A list stays balanced when its first element goes together with a counterpart. -/
lemma Balanced.eraseP {p : α → Bool} (h : Balanced f g (a :: l)) (hf : f a = some k)
    (hg : g a = none) (hp : ∀ x, p x = true → f x = none ∧ g x = some k)
    (hex : k ∈ l.filterMap g → ∃ x ∈ l, p x = true) : Balanced f g (l.eraseP p) := by
  have hmem : k ∈ l.filterMap g := by
    have := h k
    rw [filterMap_cons_some hf, filterMap_cons_none hg, count_cons_self] at this
    exact count_pos_iff.mp (by omega)
  obtain ⟨x, hx, hpx⟩ := hex hmem
  obtain ⟨y, xs, ys, -, hy, rfl, heq⟩ := exists_of_eraseP hx hpx
  rw [heq]
  intro d
  have hd := h d
  rw [filterMap_cons_some hf, filterMap_cons_none hg, filterMap_append,
    filterMap_append, filterMap_cons_none (hp y hy).1,
    filterMap_cons_some (hp y hy).2, count_cons, count_append, count_append,
    count_cons] at hd
  rw [filterMap_append, filterMap_append, count_append, count_append]
  omega

end

end ExperienceCodex.Pairing

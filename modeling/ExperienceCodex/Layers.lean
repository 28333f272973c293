import Mathlib

/-!
# Layered rules

A rule gives an access to everything at or below its root.  The most specific rule that covers a
place decides, and among equally specific ones the greatest access.

Some names directly below a root with access may be hidden: a place below such a name is closed,
unless a root with access lies between the two.
-/

namespace ExperienceCodex.Layers

open List

section
variable {α κ : Type} [LinearOrder κ] (key : α → κ)

/-- The last of the elements with the greatest key. -/
def maxByKey : List α → Option α
  | [] => none
  | x :: xs =>
    match maxByKey xs with
    | none => some x
    | some y => if key y < key x then some x else some y

variable {key} {xs : List α} {x y : α}

lemma maxByKey_eq_argmax : maxByKey key xs = xs.reverse.argmax key := by
  induction xs with
  | nil => rfl
  | cons x xs ih =>
    rw [maxByKey, ih, reverse_cons, argmax_concat]
    cases xs.reverse.argmax key <;> rfl

lemma maxByKey_spec (h : maxByKey key xs = some x) : x ∈ xs ∧ ∀ y ∈ xs, key y ≤ key x := by
  rw [maxByKey_eq_argmax] at h
  exact ⟨mem_reverse.mp (argmax_mem h), fun y hy => le_of_mem_argmax (mem_reverse.mpr hy) h⟩

lemma maxByKey_isSome (h : x ∈ xs) : ∃ y, maxByKey key xs = some y := by
  cases hmax : maxByKey key xs with
  | none =>
    rw [maxByKey_eq_argmax, argmax_eq_none, reverse_eq_nil_iff] at hmax
    simp [hmax] at h
  | some y => exact ⟨y, rfl⟩

end

lemma maxByKey_congr {α κ : Type} [LinearOrder κ] {key other : α → κ} {xs : List α}
    (h : ∀ x ∈ xs, key x = other x) : maxByKey key xs = maxByKey other xs := by
  induction xs with
  | nil => rfl
  | cons x xs ih =>
    have hrest := ih (forall_mem_of_forall_mem_cons h)
    simp only [maxByKey, hrest]
    cases hbest : maxByKey other xs with
    | none => rfl
    | some y =>
      have hy := (maxByKey_spec hbest).1
      simp only [h x mem_cons_self, h y (mem_cons_of_mem _ hy)]

lemma maxByKey_map {α β κ : Type} [LinearOrder κ] (key : β → κ) (f : α → β) (xs : List α) :
    maxByKey key (xs.map f) = (maxByKey (fun x => key (f x)) xs).map f := by
  induction xs with
  | nil => rfl
  | cons x xs ih =>
    simp only [map_cons, maxByKey, ih]
    cases maxByKey (fun x => key (f x)) xs with
    | none => rfl
    | some y =>
      simp only [Option.map_some]
      split_ifs <;> rfl

structure Rule (N A : Type) where
  root : List N
  access : A
deriving DecidableEq

section
variable {N A : Type} [DecidableEq N] [LinearOrder A]

/-- Deeper rules go before shallower ones, and greater accesses before smaller ones. -/
def rank (rule : Rule N A) : ℕ ×ₗ A := toLex (rule.root.length, rule.access)

/-- The access that the rules give to a place. -/
def decision (rules : List (Rule N A)) (p : List N) : Option A :=
  (maxByKey rank (rules.filter fun rule => rule.root <+: p)).map Rule.access

/-- A rule decides a place. -/
structure Decides (rules : List (Rule N A)) (rule : Rule N A) (p : List N) : Prop where
  mem : rule ∈ rules
  covers : rule.root <+: p
  greatest : ∀ other ∈ rules, other.root <+: p → rank other ≤ rank rule

variable {rules : List (Rule N A)} {rule other : Rule N A} {p q : List N} {a : A}

omit [DecidableEq N] in
lemma rank_le_iff : rank other ≤ rank rule ↔
    other.root.length < rule.root.length ∨
      other.root.length = rule.root.length ∧ other.access ≤ rule.access := by
  rw [rank, rank, Prod.Lex.toLex_le_toLex]

/-- The rule that decides is found. -/
theorem decision_eq_some_iff :
    decision rules p = some a ↔ ∃ rule, Decides rules rule p ∧ rule.access = a := by
  constructor
  · intro h
    obtain ⟨rule, hmax, rfl⟩ := Option.map_eq_some_iff.mp h
    obtain ⟨hmem, hgreatest⟩ := maxByKey_spec hmax
    rw [mem_filter, decide_eq_true_eq] at hmem
    refine ⟨rule, ⟨hmem.1, hmem.2, ?_⟩, rfl⟩
    intro other hother hcov
    exact hgreatest other (mem_filter.mpr ⟨hother, decide_eq_true hcov⟩)
  · rintro ⟨rule, hdecides, rfl⟩
    have hmem : rule ∈ rules.filter fun rule => rule.root <+: p :=
      mem_filter.mpr ⟨hdecides.mem, decide_eq_true hdecides.covers⟩
    obtain ⟨best, hbest⟩ : ∃ best, maxByKey rank _ = some best := maxByKey_isSome hmem
    obtain ⟨hbestMem, hbestMax⟩ := maxByKey_spec hbest
    rw [mem_filter, decide_eq_true_eq] at hbestMem
    -- Rules of the same rank have the same access.
    have hsame := le_antisymm (hdecides.greatest best hbestMem.1 hbestMem.2) (hbestMax rule hmem)
    have haccess : best.access = rule.access := congrArg (fun pair => (ofLex pair).2) hsame
    rw [decision, hbest, Option.map_some, haccess]

lemma exists_decides (hmem : rule ∈ rules) (hcov : rule.root <+: p) :
    ∃ best, Decides rules best p := by
  have hfound : rule ∈ rules.filter fun rule => rule.root <+: p :=
    mem_filter.mpr ⟨hmem, decide_eq_true hcov⟩
  obtain ⟨best, hbest⟩ : ∃ best, maxByKey rank _ = some best := maxByKey_isSome hfound
  obtain ⟨rule, hdecides, -⟩ := decision_eq_some_iff.mp
    (show decision rules p = some best.access by rw [decision, hbest, Option.map_some])
  exact ⟨rule, hdecides⟩

/-- The order of the rules does not matter. -/
theorem decision_perm {rules' : List (Rule N A)} (h : rules'.Perm rules) :
    decision rules' p = decision rules p := by
  have hdecides (rule : Rule N A) : Decides rules' rule p ↔ Decides rules rule p := by
    constructor
    · rintro ⟨hmem, hcov, hgreatest⟩
      exact ⟨h.mem_iff.mp hmem, hcov, fun other hother => hgreatest other (h.mem_iff.mpr hother)⟩
    · rintro ⟨hmem, hcov, hgreatest⟩
      exact ⟨h.mem_iff.mpr hmem, hcov, fun other hother => hgreatest other (h.mem_iff.mp hother)⟩
  ext a
  simp only [decision_eq_some_iff, hdecides]

omit [DecidableEq N] in
lemma Decides.length_le (h : Decides rules rule p) (hmem : other ∈ rules)
    (hcov : other.root <+: p) : other.root.length ≤ rule.root.length := by
  rcases rank_le_iff.mp (h.greatest other hmem hcov) with hlt | ⟨heq, -⟩
  · exact hlt.le
  · exact heq.le

omit [DecidableEq N] in
/-- What decides a place and does not lie below a place above it decides that one as well. -/
lemma Decides.above (h : Decides rules rule p) (hqp : q <+: p)
    (hshallow : rule.root.length ≤ q.length) : Decides rules rule q where
  mem := h.mem
  covers := prefix_of_prefix_length_le h.covers hqp hshallow
  greatest other hother hcov := h.greatest other hother (hcov.trans hqp)

omit [DecidableEq N] in
/-- The decisions about a place and about one above it agree, unless a rule between them decides. -/
lemma Decides.access_eq_or_below (h : Decides rules rule p) (hother : Decides rules other q)
    (hqp : q <+: p) : rule.access = other.access ∨ q <+: rule.root ∧ q ≠ rule.root := by
  by_cases hshallow : rule.root.length ≤ q.length
  · left
    have hsame := le_antisymm (hother.greatest rule h.mem (h.above hqp hshallow).covers)
      (h.greatest other hother.mem (hother.covers.trans hqp))
    exact congrArg (fun pair => (ofLex pair).2) hsame
  · right
    refine ⟨prefix_of_prefix_length_le hqp h.covers (by omega), ?_⟩
    intro heq
    rw [← heq] at hshallow
    exact hshallow le_rfl

end

section
variable {N : Type} [DecidableEq N]

/-- A place lies in a hidden directory of a root. -/
def Hides (roots : List (List N)) (names : List N) (hidden p : List N) : Prop :=
  ∃ root ∈ roots, ∃ name ∈ names, hidden = root ++ [name] ∧ hidden <+: p

/-- A root opens a place in a hidden directory again. -/
def Reopens (roots : List (List N)) (hidden p : List N) : Prop :=
  ∃ root ∈ roots, hidden <+: root ∧ root <+: p

/-- The hidden directory of a root in which a place lies. -/
def hiddenOf (names : List N) (p root : List N) : Option (List N) :=
  names.findSome? fun name => if root ++ [name] <+: p then some (root ++ [name]) else none

/-- The first hidden directory in which a place lies. -/
def firstHidden (roots : List (List N)) (names : List N) (p : List N) : Option (List N) :=
  roots.findSome? (hiddenOf names p)

variable {roots : List (List N)} {names : List N} {hidden other p q : List N} {root : List N}
  {name : N}

omit [DecidableEq N] in
lemma hides_congr {roots' : List (List N)} (h : ∀ root, root ∈ roots' ↔ root ∈ roots) :
    Hides roots' names hidden p ↔ Hides roots names hidden p := by
  simp only [Hides, h]

omit [DecidableEq N] in
lemma reopens_congr {roots' : List (List N)} (h : ∀ root, root ∈ roots' ↔ root ∈ roots) :
    Reopens roots' hidden p ↔ Reopens roots hidden p := by
  simp only [Reopens, h]

lemma hiddenOf_eq_some_iff :
    hiddenOf names p root = some hidden ↔
      ∃ name ∈ names, hidden = root ++ [name] ∧ hidden <+: p := by
  constructor
  · intro h
    obtain ⟨name, hname, h⟩ := exists_of_findSome?_eq_some h
    split_ifs at h with hcov
    cases h
    exact ⟨name, hname, rfl, hcov⟩
  · rintro ⟨name, hname, rfl, hcov⟩
    cases h : hiddenOf names p root with
    | none =>
      have hnone := findSome?_eq_none_iff.mp h name hname
      simp [hcov] at hnone
    | some found =>
      obtain ⟨other, -, hother⟩ := exists_of_findSome?_eq_some h
      split_ifs at hother with hbeg
      cases hother
      exact congrArg some
        ((prefix_of_prefix_length_le hbeg hcov (by simp)).eq_of_length (by simp))

lemma mem_of_firstHidden (h : firstHidden roots names p = some hidden) :
    Hides roots names hidden p := by
  obtain ⟨root, hroot, h⟩ := exists_of_findSome?_eq_some h
  exact ⟨root, hroot, hiddenOf_eq_some_iff.mp h⟩

lemma firstHidden_eq_none_iff :
    firstHidden roots names p = none ↔ ∀ hidden, ¬ Hides roots names hidden p := by
  rw [firstHidden, findSome?_eq_none_iff]
  constructor
  · intro h hidden hhides
    obtain ⟨root, hroot, hname⟩ := hhides
    rw [← hiddenOf_eq_some_iff, h root hroot] at hname
    cases hname
  · intro h root hroot
    cases hfound : hiddenOf names p root with
    | none => rfl
    | some hidden => exact absurd ⟨root, hroot, hiddenOf_eq_some_iff.mp hfound⟩ (h hidden)

/-- The first hidden directory over a place is the first one over what lies between them. -/
lemma firstHidden_above (h : firstHidden roots names p = some hidden) (hqp : q <+: p)
    (hhidden : hidden <+: q) : firstHidden roots names q = some hidden := by
  induction roots with
  | nil => simp [firstHidden] at h
  | cons root roots ih =>
    rw [firstHidden, findSome?_cons] at h ⊢
    cases hfound : hiddenOf names p root with
    | some found =>
      rw [hfound, Option.some.injEq] at h
      rw [h] at hfound
      obtain ⟨name, hname, heq, -⟩ := hiddenOf_eq_some_iff.mp hfound
      rw [hiddenOf_eq_some_iff.mpr ⟨name, hname, heq, hhidden⟩]
    | none =>
      rw [hfound] at h
      -- What hides the place above hides the place.
      have hnone : hiddenOf names q root = none := by
        cases habove : hiddenOf names q root with
        | none => rfl
        | some other =>
          obtain ⟨name, hname, heq, hother⟩ := hiddenOf_eq_some_iff.mp habove
          rw [hiddenOf_eq_some_iff.mpr ⟨name, hname, heq, hother.trans hqp⟩] at hfound
          cases hfound
      rw [hnone]
      exact ih h

omit [DecidableEq N] in
/-- Two hidden directories over a place: the deeper one belongs to a root in the other. -/
lemma Hides.nested (h : Hides roots names hidden p) (hother : Hides roots names other p)
    (hlt : hidden.length < other.length) :
    ∃ root ∈ roots, hidden <+: root ∧ ∃ name ∈ names, other = root ++ [name] := by
  obtain ⟨root, hroot, name, hname, rfl, hcov⟩ := hother
  obtain ⟨-, -, -, -, -, hhidden⟩ := h
  refine ⟨root, hroot, ?_, name, hname, rfl⟩
  refine prefix_of_prefix_length_le hhidden ((prefix_append root [name]).trans hcov) ?_
  rw [length_append, length_singleton] at hlt
  omega

end

section
variable {N A : Type} [DecidableEq N] [LinearOrder A]

/-- The roots of the rules with an access. -/
def rootsOf (rules : List (Rule N A)) (a : A) : List (List N) :=
  (rules.filter fun rule => rule.access = a).map Rule.root

variable {rules : List (Rule N A)} {names : List N} {a : A} {p root : List N}

omit [DecidableEq N] in
lemma mem_rootsOf : root ∈ rootsOf rules a ↔ ⟨root, a⟩ ∈ rules := by
  simp only [rootsOf, mem_map, mem_filter, decide_eq_true_eq]
  constructor
  · rintro ⟨rule, ⟨hmem, rfl⟩, rfl⟩
    exact hmem
  · intro hmem
    exact ⟨⟨root, a⟩, ⟨hmem, rfl⟩, rfl⟩

/-- Where a root lies in a hidden directory of another, some rule covers the place in the hidden
directories of the inner one, or the inner root has a greater access as well. -/
def NestedCovered (rules : List (Rule N A)) (names : List N) (a : A) (p : List N) : Prop :=
  ∀ outer ∈ rootsOf rules a, ∀ inner ∈ rootsOf rules a, ∀ m ∈ names, ∀ n ∈ names,
    outer ++ [m] <+: inner → inner ++ [n] <+: p →
      (∃ rule ∈ rules, inner ++ [n] <+: rule.root ∧ rule.root <+: p) ∨
        ∃ rule ∈ rules, rule.root = inner ∧ a < rule.access

/-- A place is decided at a root, when no rule covers it in a directory of the root. -/
lemma decision_at_root {inner : List N} {n : N} (hinner : inner ∈ rootsOf rules a)
    (hp : inner ++ [n] <+: p)
    (hnone : ¬ ∃ rule ∈ rules, inner ++ [n] <+: rule.root ∧ rule.root <+: p)
    (hgreater : ¬ ∃ rule ∈ rules, rule.root = inner ∧ a < rule.access) :
    decision rules p = some a := by
  have hcov : inner <+: p := (prefix_append inner [n]).trans hp
  refine decision_eq_some_iff.mpr ⟨⟨inner, a⟩, ⟨mem_rootsOf.mp hinner, hcov, ?_⟩, rfl⟩
  intro other hmem hother
  rw [rank_le_iff]
  by_contra hle
  push Not at hle
  change inner.length ≤ other.root.length ∧
    (other.root.length = inner.length → a < other.access) at hle
  -- A rule that is not deeper than the root lies at it or above it.
  by_cases hdeep : inner.length < other.root.length
  · refine hnone ⟨other, hmem, prefix_of_prefix_length_le hp hother ?_, hother⟩
    rw [length_append, length_singleton]
    omega
  · have hlen : other.root.length = inner.length := by omega
    have hroot : other.root = inner :=
      (prefix_of_prefix_length_le hother hcov hlen.le).eq_of_length hlen
    exact hgreater ⟨other, hmem, hroot, hle.2 hlen⟩

/-- Every hidden directory over an open place is opened again as soon as one is, exactly when the
nested roots are covered. -/
theorem reopens_all_iff :
    (decision rules p = some a → ∀ hidden other, Hides (rootsOf rules a) names hidden p →
        Hides (rootsOf rules a) names other p → Reopens (rootsOf rules a) hidden p →
          Reopens (rootsOf rules a) other p) ↔
      NestedCovered rules names a p := by
  constructor
  · intro hall outer houter inner hinner m hm n hn hnested hp
    by_contra hnot
    push Not at hnot
    have hinnerP : inner <+: p := (prefix_append inner [n]).trans hp
    have hdec := decision_at_root hinner hp (by simpa using hnot.1) (by simpa using hnot.2)
    obtain ⟨root, hroot, hbelow, habove⟩ := hall hdec (outer ++ [m]) (inner ++ [n])
      ⟨outer, houter, m, hm, rfl, hnested.trans hinnerP⟩ ⟨inner, hinner, n, hn, rfl, hp⟩
      ⟨inner, hinner, hnested, hinnerP⟩
    exact hnot.1 ⟨root, a⟩ (mem_rootsOf.mp hroot) hbelow habove
  · intro hcovered hdec hidden other hhidden hother hreopens
    by_cases hlen : other.length ≤ hidden.length
    · -- What opens the deeper directory opens the other.
      obtain ⟨root, hroot, hbelow, habove⟩ := hreopens
      obtain ⟨-, -, -, -, -, hhiddenP⟩ := hhidden
      obtain ⟨-, -, -, -, -, hotherP⟩ := hother
      exact ⟨root, hroot,
        (prefix_of_prefix_length_le hotherP hhiddenP hlen).trans hbelow, habove⟩
    obtain ⟨inner, hinner, hnested, n, hn, rfl⟩ := hhidden.nested hother (by omega)
    obtain ⟨-, -, -, -, -, hotherP⟩ := hother
    obtain ⟨outer, houter, m, hm, rfl, -⟩ := hhidden
    obtain ⟨rule, hdecides, haccess⟩ := decision_eq_some_iff.mp hdec
    have hdecided : rule.root ∈ rootsOf rules a := mem_rootsOf.mpr (haccess ▸ hdecides.mem)
    rcases hcovered outer houter inner hinner m hm n hn hnested hotherP with
      ⟨other, hmem, hbelow, habove⟩ | ⟨other, hmem, hroot, hgreater⟩
    · -- The rule that decides lies at least as deep.
      have hlen := hdecides.length_le hmem habove
      refine ⟨rule.root, hdecided, ?_, hdecides.covers⟩
      exact prefix_of_prefix_length_le hotherP hdecides.covers
        (hbelow.length_le.trans hlen)
    · -- The root itself does not decide.
      have hinnerP : inner <+: p := (prefix_append inner [n]).trans hotherP
      have hle := rank_le_iff.mp (hdecides.greatest other hmem (hroot ▸ hinnerP))
      rw [hroot, haccess] at hle
      refine ⟨rule.root, hdecided, ?_, hdecides.covers⟩
      refine prefix_of_prefix_length_le hotherP hdecides.covers ?_
      rw [length_append, length_singleton]
      rcases hle with hlt | ⟨-, hle⟩
      · omega
      · exact absurd hle (not_le.mpr hgreater)

end

end ExperienceCodex.Layers

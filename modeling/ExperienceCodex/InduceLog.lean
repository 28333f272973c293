import ExperienceCodex.Induce

/-!
# What induction records

The texts that two runs have in the same places, read off the arguments alone, and what the inducer
makes of them: each pair of texts that differ gets one parameter, in the order in which the pairs
first occur.  A pair determines its capture rule and a rule determines the pair that it captures, so
that looking up rules is looking up pairs.
-/

namespace ExperienceCodex

open List hiding after
open Text

/-- Two texts in the same place, and the key they stand under. -/
structure Leaf where
  hint : Option String
  valueA : String
  valueB : String

mutual
/-- The pairs of texts of two values of one shape. -/
def leaves (hint : Option String) : Json → Json → List Leaf
  | .string textA, .string textB => [{ hint, valueA := textA, valueB := textB }]
  | .array itemsA, .array itemsB => leavesItems itemsA itemsB
  | .object membersA, .object membersB => leavesMembers membersB membersA
  | _, _ => []
def leavesItems : List Json → List Json → List Leaf
  | itemA :: restA, itemB :: restB => leaves none itemA itemB ++ leavesItems restA restB
  | _, _ => []
def leavesMembers (membersB : List (String × Json)) : List (String × Json) → List Leaf
  | [] => []
  | (key, itemA) :: restA =>
    (match membersB.lookup key with
      | some itemB => leaves (some key) itemA itemB
      | none => []) ++ leavesMembers membersB restA
end

mutual
/-- The values agree except in their texts. -/
def alike : Json → Json → Bool
  | .string _, .string _ => true
  | .array itemsA, .array itemsB => itemsA.length == itemsB.length && alikeItems itemsA itemsB
  | .object membersA, .object membersB =>
    membersA.length == membersB.length && alikeMembers membersB membersA
  | left, right => left.jsonEq right
def alikeItems : List Json → List Json → Bool
  | itemA :: restA, itemB :: restB => alike itemA itemB && alikeItems restA restB
  | _, _ => true
def alikeMembers (membersB : List (String × Json)) : List (String × Json) → Bool
  | [] => true
  | (key, itemA) :: restA =>
    (match membersB.lookup key with
      | some itemB => alike itemA itemB
      | none => false) && alikeMembers membersB restA
end

/-- A pair of texts that differ, with its capture rule and its name. -/
structure Entry where
  valueA : String
  valueB : String
  before : Option String
  after : Option String
  base : String
  name : String

namespace Entry

variable {log : List Entry} {inducer : Inducer} {before after : Option String}

def key (entry : Entry) : String × String := (entry.before.getD "", entry.after.getD "")

/-- The entry is about the given texts. -/
def covers (valueA valueB : String) (entry : Entry) : Bool :=
  entry.valueA == valueA && entry.valueB == valueB

def parameter (entry : Entry) : TemplateParameter :=
  { name := entry.name
    source := "task"
    kind := if looksLikePath entry.valueA entry.valueB then paramKindPath else paramKindText
    before := entry.before
    after := entry.after
    required := true }

end Entry

section
variable (isAlphanumeric : Char → Bool) (taskA taskB : String)

/-- The entry that a pair gets after the given ones. -/
def newEntry (log : List Entry) (leaf : Leaf) : Entry :=
  let rule := (captureRule isAlphanumeric taskA taskB leaf.valueA leaf.valueB).getD (none, none)
  let base := baseName leaf.hint (rule.1.getD "") (rule.2.getD "")
  { valueA := leaf.valueA
    valueB := leaf.valueB
    before := rule.1
    after := rule.2
    base
    name := Numbering.numbered base ((log.map Entry.base).count base + 1) }

/-- A pair is recorded when it differs and is new. -/
def logLeaf (log : List Entry) (leaf : Leaf) : List Entry :=
  if leaf.valueA = leaf.valueB ∨ log.any (Entry.covers leaf.valueA leaf.valueB) then log
  else log ++ [newEntry isAlphanumeric taskA taskB log leaf]

def logLeaves (log : List Entry) (pairs : List Leaf) : List Entry :=
  pairs.foldl (logLeaf isAlphanumeric taskA taskB) log

lemma logLeaves_grows (log : List Entry) (pairs : List Leaf) :
    log <+: logLeaves isAlphanumeric taskA taskB log pairs := by
  induction pairs generalizing log with
  | nil => exact prefix_rfl
  | cons leaf rest ih =>
    refine prefix_rfl.trans (IsPrefix.trans ?_ (ih _))
    unfold logLeaf
    split_ifs
    · exact prefix_rfl
    · exact prefix_append _ _

end

/-- The text that stands for a pair in the template. -/
def holeText (log : List Entry) (valueA valueB : String) : String :=
  if valueA = valueB then valueA
  else
    Inducer.placeholder
      (((log.find? (Entry.covers valueA valueB)).map Entry.name).getD "")

mutual
/-- A value with the holes of a record. -/
def withHoles (log : List Entry) : Json → Json → Json
  | .string textA, .string textB => .string (holeText log textA textB)
  | .array itemsA, .array itemsB => .array (withHolesItems log itemsA itemsB)
  | .object membersA, .object membersB => .object (withHolesMembers log membersB membersA)
  | left, _ => left
def withHolesItems (log : List Entry) : List Json → List Json → List Json
  | itemA :: restA, itemB :: restB => withHoles log itemA itemB :: withHolesItems log restA restB
  | _, _ => []
def withHolesMembers (log : List Entry) (membersB : List (String × Json)) :
    List (String × Json) → List (String × Json)
  | [] => []
  | (key, itemA) :: restA =>
    match membersB.lookup key with
    | some itemB => (key, withHoles log itemA itemB) :: withHolesMembers log membersB restA
    | none => []
end

lemma ne_empty_of_not_isBlank {text : String} (h : isBlank text = false) : text ≠ "" := by
  rintro rfl
  exact absurd h (by decide)

/-- A proposed anchor is not the empty text. -/
lemma ne_empty_of_mem_anchorProposals {window : List Char} {words : List String}
    {anchor : Option String}
    (h : anchor ∈ anchorProposals window (words.find? fun piece => !isBlank piece)) :
    anchor ≠ some "" := by
  rintro rfl
  simp only [anchorProposals] at h
  split_ifs at h with hblank
  · simp at h
  · rcases mem_cons.mp h with heq | h
    · rw [← Option.some.inj heq] at hblank
      exact hblank (by decide)
    · rcases mem_append.mp h with h | h
      · rw [Option.mem_toList, Option.bind_eq_some_iff] at h
        obtain ⟨text, htext, h⟩ := h
        split_ifs at h
        cases h
        exact absurd (find?_some htext) (by decide)
      · simp at h

section
variable {isAlphanumeric : Char → Bool} {taskA taskB : String}

lemma captureRule_spec {valueA valueB : String}
    (h : captureRule isAlphanumeric taskA taskB valueA valueB = some (before, after)) :
    captureParameter taskA before after = some valueA ∧
      captureParameter taskB before after = some valueB ∧ before ≠ some "" ∧ after ≠ some "" := by
  have hbinds := find?_some h
  have hmem := mem_of_find?_eq_some h
  simp only [Bool.and_eq_true, bindsTo, beq_iff_eq] at hbinds
  simp only [mem_flatMap, mem_map] at hmem
  obtain ⟨_, -, _, -, _, hbefore, _, hafter, heq⟩ := hmem
  cases heq
  rw [anchorBefore] at hbefore
  rw [anchorAfter] at hafter
  exact ⟨hbinds.1.2, hbinds.2, ne_empty_of_mem_anchorProposals hbefore,
    ne_empty_of_mem_anchorProposals hafter⟩

lemma getD_inj {other : Option String} (hbefore : before ≠ some "") (hother : other ≠ some "")
    (h : before.getD "" = other.getD "") : before = other := by
  cases before <;> cases other <;> simp_all

end

/-- The characters of a name: lowercase letters, digits and underscores. -/
def isNameChar (c : Char) : Bool := c.isLower || c.isDigit || c == '_'

lemma toNat_lt_of_isAlphanum {c : Char} (h : c.isAlphanum = true) : c.toNat < 128 := by
  simp only [Char.isAlphanum, Char.isAlpha, Char.isUpper, Char.isLower, Char.isDigit,
    Bool.or_eq_true, Bool.and_eq_true, decide_eq_true_eq, UInt32.le_iff_toNat_le] at h
  have hval : c.toNat = c.val.toNat := rfl
  have hupper : 'Z'.val.toNat = 90 := rfl
  have hlower : 'z'.val.toNat = 122 := rfl
  have hdigit : '9'.val.toNat = 57 := rfl
  omega

lemma isNameChar_toLower {c : Char} (h : c.isAlphanum = true) : isNameChar c.toLower = true := by
  have hchar : c.isAlphanum = true → isNameChar c.toLower = true :=
    of_toNat_lt (toNat_lt_of_isAlphanum h) (by decide +kernel)
  exact hchar h

lemma isNameChar_of_mem_pushSanitized {output : List Char} (c : Char)
    (h : ∀ c ∈ output, isNameChar c = true) :
    ∀ d ∈ pushSanitized output c, isNameChar d = true := by
  have hpush : ∀ last, isNameChar last = true → ∀ d ∈ output ++ [last], isNameChar d = true := by
    intro last hlast
    exact forall_mem_append.mpr ⟨h, forall_mem_singleton.mpr hlast⟩
  unfold pushSanitized
  split_ifs with halnum
  · exact hpush _ (isNameChar_toLower halnum)
  · exact h
  · exact hpush _ (by decide)

lemma isNameChar_of_mem_sanitize {input : String} :
    ∀ c ∈ (sanitize input).toList, isNameChar c = true := by
  have hfold : ∀ (text output : List Char), (∀ c ∈ output, isNameChar c = true) →
      ∀ c ∈ text.foldl pushSanitized output, isNameChar c = true := by
    intro text
    induction text with
    | nil => exact fun _ houtput => houtput
    | cons first rest ih =>
      exact fun output houtput => ih _ (isNameChar_of_mem_pushSanitized first houtput)
  intro c hmem
  rw [sanitize, String.toList_ofList] at hmem
  have hkept := (List.rdropWhile_prefix _ _).subset hmem
  exact hfold input.toList [] nofun c ((dropWhile_sublist _).subset hkept)

lemma isNameChar_of_mem_lastAlnumRun {input : String} :
    ∀ c ∈ (lastAlnumRun input).toList, isNameChar c = true := by
  unfold lastAlnumRun
  cases (splitAtChars (fun c => !c.isAlphanum) input).reverse.find? fun run => !run.isEmpty with
  | none => exact nofun
  | some run => exact isNameChar_of_mem_sanitize

lemma isNameChar_of_mem_baseName (hint : Option String) (before after : String) :
    ∀ c ∈ (baseName hint before after).toList, isNameChar c = true := by
  simp only [baseName]
  split_ifs
  · cases hint with
    | none => exact nofun
    | some hint => exact isNameChar_of_mem_sanitize
  · exact isNameChar_of_mem_lastAlnumRun
  · exact isNameChar_of_mem_lastAlnumRun
  · have hval : "value".toList.all isNameChar = true := by decide
    exact all_eq_true.mp hval

lemma isNameChar_of_mem_numbered {base : String} (k : ℕ)
    (h : ∀ c ∈ base.toList, isNameChar c = true) :
    ∀ c ∈ (Numbering.numbered base k).toList, isNameChar c = true := by
  intro c hmem
  unfold Numbering.numbered Numbering.suffixed at hmem
  split_ifs at hmem
  · exact h c hmem
  · rw [String.toList_append, String.toList_append, mem_append, mem_append] at hmem
    obtain (hmem | hmem) | hmem := hmem
    · exact h c hmem
    · rw [mem_singleton.mp hmem]
      decide
    · rw [Nat.toString_eq_ofList_toDigits, String.toList_ofList] at hmem
      have hdigit := Nat.isDigit_of_mem_toDigits (by decide) (by decide) hmem
      simp [isNameChar, hdigit]

section
variable (isAlphanumeric : Char → Bool) (taskA taskB : String)

/-- The state of the inducer is that of a record, whose pairs differ from each other, have rules
and are numbered. -/
structure Logged (log : List Entry) (inducer : Inducer) : Prop where
  parameters : inducer.parameters = log.map Entry.parameter
  rules : inducer.rules = log.map fun entry => (entry.key, entry.name)
  names : ∀ base, inducer.names[base]?.getD 0 = (log.map Entry.base).count base
  rule : ∀ entry ∈ log, captureRule isAlphanumeric taskA taskB entry.valueA entry.valueB =
    some (entry.before, entry.after)
  nonblank : ∀ entry ∈ log, isBlank entry.valueA = false ∧ isBlank entry.valueB = false
  distinct : (log.map fun entry => (entry.valueA, entry.valueB)).Nodup
  numbered : log.map Entry.name = Numbering.numberAll (log.map Entry.base)
  nameChars : ∀ entry ∈ log, ∀ c ∈ entry.name.toList, isNameChar c = true

end

section
variable {isAlphanumeric : Char → Bool} {taskA taskB : String}

lemma logged_nil : Logged isAlphanumeric taskA taskB [] {} where
  parameters := rfl
  rules := rfl
  names base := by simp
  rule := nofun
  nonblank := nofun
  distinct := nodup_nil
  numbered := rfl
  nameChars := nofun

lemma lookup_map_key (log : List Entry) (key : String × String) :
    (log.map fun e => (e.key, e.name)).lookup key =
      (log.find? fun e => e.key == key).map Entry.name := by
  induction log with
  | nil => rfl
  | cons e rest ih =>
    rw [map_cons, lookup_cons, find?_cons]
    by_cases hkey : e.key = key
    · simp [hkey]
    · have hne : (key == e.key) = false := beq_eq_false_iff_ne.mpr (Ne.symm hkey)
      have hne' : (e.key == key) = false := beq_eq_false_iff_ne.mpr hkey
      rw [hne, hne', ih]

section
variable (h : Logged isAlphanumeric taskA taskB log inducer)
include h

/-- Looking up a rule is looking up the pair it captures. -/
lemma Logged.lookup_rules {valueA valueB : String}
    (hrule : captureRule isAlphanumeric taskA taskB valueA valueB = some (before, after)) :
    inducer.rules.lookup (before.getD "", after.getD "") =
      (log.find? (Entry.covers valueA valueB)).map Entry.name := by
  have hsame : ∀ e ∈ log, (e.key == (before.getD "", after.getD "")) =
      e.covers valueA valueB := by
    intro e hmem
    rw [Bool.eq_iff_iff, beq_iff_eq, Entry.covers, Bool.and_eq_true, beq_iff_eq, beq_iff_eq]
    constructor
    · intro hkey
      obtain ⟨hA, hB, hbefore, hafter⟩ := captureRule_spec (h.rule e hmem)
      obtain ⟨hA', hB', hbefore', hafter'⟩ := captureRule_spec hrule
      rw [Entry.key, Prod.mk.injEq] at hkey
      rw [getD_inj hbefore hbefore' hkey.1, getD_inj hafter hafter' hkey.2] at hA hB
      exact ⟨Option.some.inj (hA.symm.trans hA'), Option.some.inj (hB.symm.trans hB')⟩
    · rintro ⟨rfl, rfl⟩
      cases (h.rule e hmem).symm.trans hrule
      rfl
  rw [h.rules, lookup_map_key, find?_congr hsame]

/-- A new pair with a rule gets a parameter of its own. -/
lemma recordParameter_of_new {leaf : Leaf}
    (hrule : captureRule isAlphanumeric taskA taskB leaf.valueA leaf.valueB = some (before, after))
    (hnew : log.find? (Entry.covers leaf.valueA leaf.valueB) = none) :
    let entry := newEntry isAlphanumeric taskA taskB log leaf
    inducer.recordParameter leaf.hint before after leaf.valueA leaf.valueB =
      (entry.name,
        { parameters := inducer.parameters ++ [entry.parameter]
          rules := inducer.rules ++ [(entry.key, entry.name)]
          names := inducer.names.insert entry.base ((log.map Entry.base).count entry.base + 1)
    }) := by
  simp only [Inducer.recordParameter, h.lookup_rules hrule, hnew, Option.map_none,
    Inducer.uniqueName, h.names, newEntry, hrule, Option.getD_some, Entry.parameter, Entry.key]

/-- Record a new pair with a rule. -/
lemma Logged.append {leaf : Leaf}
    (hrule : captureRule isAlphanumeric taskA taskB leaf.valueA leaf.valueB = some (before, after))
    (hblank : isBlank leaf.valueA = false ∧ isBlank leaf.valueB = false)
    (hnew : log.find? (Entry.covers leaf.valueA leaf.valueB) = none) :
    Logged isAlphanumeric taskA taskB (log ++ [newEntry isAlphanumeric taskA taskB log leaf])
      (inducer.recordParameter leaf.hint before after leaf.valueA leaf.valueB).2 := by
  rw [recordParameter_of_new h hrule hnew]
  have hmem : ∀ {motive : Entry → Prop}, (∀ entry ∈ log, motive entry) →
      motive (newEntry isAlphanumeric taskA taskB log leaf) →
      ∀ entry ∈ log ++ [newEntry isAlphanumeric taskA taskB log leaf], motive entry := by
    intro motive hold hlast
    exact forall_mem_append.mpr ⟨hold, forall_mem_singleton.mpr hlast⟩
  constructor
  · rw [map_append, h.parameters]
    rfl
  · rw [map_append, h.rules]
    rfl
  · intro base
    rw [Std.ExtTreeMap.getElem?_insert, map_append, count_append, map_singleton, count_singleton]
    by_cases hbase : (newEntry isAlphanumeric taskA taskB log leaf).base = base
    · simp [hbase]
    · simp [hbase, h.names]
  · refine hmem h.rule ?_
    simp only [newEntry, hrule, Option.getD_some]
  · exact hmem h.nonblank hblank
  · have hfresh : (leaf.valueA, leaf.valueB) ∉ log.map fun entry => (entry.valueA, entry.valueB) :=
    by
      intro hmem
      obtain ⟨entry, hentry, heq⟩ := mem_map.mp hmem
      rw [Prod.mk.injEq] at heq
      refine find?_eq_none.mp hnew entry hentry ?_
      simp [Entry.covers, heq]
    rw [map_append, nodup_append_comm, map_singleton, singleton_append, nodup_cons]
    exact ⟨hfresh, h.distinct⟩
  · rw [map_append, map_append, map_singleton, map_singleton,
      Numbering.numberAll_concat, h.numbered]
    rfl
  · refine hmem h.nameChars ?_
    exact isNameChar_of_mem_numbered _ (isNameChar_of_mem_baseName _ _ _)

/-- The inducer finds or makes the entry of a pair that has a rule. -/
theorem Logged.recordParameter {leaf : Leaf}
    (hdiff : leaf.valueA ≠ leaf.valueB)
    (hrule : captureRule isAlphanumeric taskA taskB leaf.valueA leaf.valueB = some (before, after))
    (hblank : isBlank leaf.valueA = false ∧ isBlank leaf.valueB = false) :
    let outcome := inducer.recordParameter leaf.hint before after leaf.valueA leaf.valueB
    let log' := logLeaf isAlphanumeric taskA taskB log leaf
    Logged isAlphanumeric taskA taskB log' outcome.2 ∧
      (log'.find? (Entry.covers leaf.valueA leaf.valueB)).map Entry.name = some outcome.1 := by
  intro outcome log'
  cases hfound : log.find? (Entry.covers leaf.valueA leaf.valueB) with
  | some e =>
    have hany : log.any (Entry.covers leaf.valueA leaf.valueB) = true :=
      any_eq_true.mpr ⟨e, mem_of_find?_eq_some hfound, find?_some hfound⟩
    have hlog : log' = log := if_pos (.inr hany)
    have hout : outcome = (e.name, inducer) := by
      simp [outcome, Inducer.recordParameter, h.lookup_rules hrule, hfound]
    rw [hout, hlog, hfound]
    exact ⟨h, rfl⟩
  | none =>
    have hany : ¬ log.any (Entry.covers leaf.valueA leaf.valueB) = true := by
      rw [any_eq_true]
      rintro ⟨e, hmem, hcov⟩
      exact find?_eq_none.mp hfound e hmem hcov
    have hlog : log' = log ++ [newEntry isAlphanumeric taskA taskB log leaf] :=
      if_neg (not_or.mpr ⟨hdiff, hany⟩)
    have hcov : (newEntry isAlphanumeric taskA taskB log leaf).covers leaf.valueA leaf.valueB =
        true := by
      simp [newEntry, Entry.covers]
    rw [hlog]
    refine ⟨h.append hrule hblank hfound, ?_⟩
    rw [find?_append, hfound, Option.none_or, find?_singleton, if_pos hcov]
    exact congrArg (some ·.1) (recordParameter_of_new h hrule hfound).symm

end

end

end ExperienceCodex

import Mathlib

/-!
# File trees

A file tree assigns nodes to locations.  A location is the list of names from the root down to it,
and a node is a file with its content, a directory, or a symbolic link.  The tree is kept as a list
of entries, and its invariant is that everything but the root stands in a directory.

The elementary changes are total: a change that would break the invariant does nothing.  Each has a
lemma that says what stands at every location afterwards, and nothing else about them is used.
-/

namespace ExperienceCodex.FileTree

open List

/-- The names from the root down to a place. -/
abbrev Loc (N : Type) := List N

/-- A component of a path. -/
inductive PathStep (N : Type) where
  | here
  | up
  | down (name : N)
deriving DecidableEq

/-- A path that starts at the root or at the current directory. -/
structure Route (N : Type) where
  absolute : Bool
  steps : List (PathStep N)
deriving DecidableEq

inductive Node (N α : Type) where
  | file (content : α)
  | dir
  | link (target : Route N)

namespace Node

variable {N α : Type}

def isFile : Node N α → Bool
  | file _ => true
  | _ => false

def isDir : Node N α → Bool
  | dir => true
  | _ => false

def isLink : Node N α → Bool
  | link _ => true
  | _ => false

end Node

section
variable {N α : Type} [DecidableEq N]

/-- What the entries have at a location.  The root is always a directory. -/
def nodeIn (entries : List (Loc N × Node N α)) (l : Loc N) : Option (Node N α) :=
  if l = [] then some .dir else entries.lookup l

variable (es : List (Loc N × Node N α))

@[simp] lemma nodeIn_nil :
    nodeIn es [] = some .dir := rfl

lemma nodeIn_cons {k : Loc N} (hk : k ≠ [])
    (node : Node N α) (l : Loc N) :
    nodeIn ((k, node) :: es) l = if l = k then some node else nodeIn es l := by
  unfold nodeIn
  by_cases hl : l = k
  · subst hl
    simp [hk]
  · simp only [lookup_cons, beq_eq_false_iff_ne.mpr hl, hl, if_false]

variable {l : Loc N}

lemma nodeIn_filter (keep : Loc N → Bool)
    (hl : l ≠ []) :
    nodeIn (es.filter fun e => keep e.1) l =
      if keep l then nodeIn es l else none := by
  simp only [nodeIn, hl, if_false]
  induction es with
  | nil => simp
  | cons e rest ih =>
    obtain ⟨k, node⟩ := e
    by_cases hkey : l = k
    · subst hkey
      by_cases hkeep : keep l = true
      · simp [hkeep]
      · simp only [hkeep, filter_cons, if_false, Bool.false_eq_true] at ih ⊢
        exact ih
    · by_cases hkeep : keep k = true
      · simp [hkeep, lookup_cons, beq_eq_false_iff_ne.mpr hkey, ih]
      · simp [hkeep, lookup_cons, beq_eq_false_iff_ne.mpr hkey, ih]

/-- The entries after everything at and below `source` has gone to `target`, in place of what was
there. -/
def moveEntries (source target : Loc N) (entries : List (Loc N × Node N α)) :
    List (Loc N × Node N α) :=
  entries.filterMap fun (k, node) =>
    if source <+: k then some (target ++ k.drop source.length, node)
    else if target <+: k then none
    else some (k, node)

lemma lookup_moveEntries (src tgt : Loc N) (es : List (Loc N × Node N α))
    (l : Loc N) :
    (moveEntries src tgt es).lookup l =
      if tgt <+: l then es.lookup (src ++ l.drop tgt.length)
      else if src <+: l then none
      else es.lookup l := by
  induction es with
  | nil => simp [moveEntries]
  | cons e rest ih =>
    obtain ⟨k, node⟩ := e
    unfold moveEntries at ih ⊢
    by_cases hsrc : src <+: k
    · obtain ⟨below, rfl⟩ := hsrc
      have hmoved : (l == tgt ++ below) = decide (tgt <+: l ∧
          src ++ l.drop tgt.length = src ++ below) := by
        rw [Bool.eq_iff_iff, beq_iff_eq, decide_eq_true_eq, append_cancel_left_eq]
        constructor
        · rintro rfl
          simp
        · rintro ⟨⟨rest, rfl⟩, hrest⟩
          rw [← hrest, drop_left]
      simp only [filterMap_cons, prefix_append, if_true, drop_left, lookup_cons, hmoved, ih]
      by_cases htgt : tgt <+: l
      · simp only [htgt, true_and, if_true]
        by_cases hbelow : src ++ l.drop tgt.length = src ++ below
        · simp [hbelow]
        · simp [hbelow, beq_eq_false_iff_ne.mpr hbelow]
      · simp only [htgt, false_and, decide_false, if_false]
        by_cases hl : src <+: l
        · simp [hl]
        · have hne : l ≠ src ++ below := by
            rintro rfl
            exact hl (prefix_append _ _)
          simp [hl, beq_eq_false_iff_ne.mpr hne]
    · by_cases htgt : tgt <+: k
      · simp only [filterMap_cons, hsrc, htgt, if_false, if_true, lookup_cons, ih]
        by_cases hl : tgt <+: l
        · have hne : src ++ l.drop tgt.length ≠ k := by
            rintro rfl
            exact hsrc (prefix_append _ _)
          simp [hl, beq_eq_false_iff_ne.mpr hne]
        · have hne : l ≠ k := by
            rintro rfl
            exact hl htgt
          simp [hl, beq_eq_false_iff_ne.mpr hne]
      · simp only [filterMap_cons, hsrc, htgt, if_false, lookup_cons, ih]
        by_cases hl : tgt <+: l
        · have hne : l ≠ k := by
            rintro rfl
            exact htgt hl
          have hne' : src ++ l.drop tgt.length ≠ k := by
            rintro rfl
            exact hsrc (prefix_append _ _)
          simp [hl, beq_eq_false_iff_ne.mpr hne, beq_eq_false_iff_ne.mpr hne']
        · by_cases hs : src <+: l
          · have hne : l ≠ k := by
              rintro rfl
              exact hsrc hs
            simp [hl, hs, beq_eq_false_iff_ne.mpr hne]
          · simp [hl, hs]

end

/-- Entries in which everything but the root stands in a directory. -/
structure Tree (N α : Type) [DecidableEq N] where
  entries : List (Loc N × Node N α)
  parents : ∀ l name, nodeIn entries (l ++ [name]) ≠ none → nodeIn entries l = some .dir

namespace Tree

variable {N α : Type} [DecidableEq N] (t : Tree N α)

def empty : Tree N α := ⟨[], fun l name h => absurd (by simp [nodeIn]) h⟩

/-- What stands at a location. -/
def node (l : Loc N) : Option (Node N α) := nodeIn t.entries l

def isFile (l : Loc N) : Bool := (t.node l).any Node.isFile

def isDir (l : Loc N) : Bool := (t.node l).any Node.isDir

def isLink (l : Loc N) : Bool := (t.node l).any Node.isLink

/-- The content of the file at a location. -/
def content (l : Loc N) : Option α :=
  match t.node l with
  | some (.file content) => some content
  | _ => none

@[simp] lemma node_root : t.node [] = some .dir := rfl

variable {t}

lemma isDir_iff : t.isDir l = true ↔ t.node l = some .dir := by
  unfold isDir
  cases t.node l with
  | none => simp
  | some node => cases node <;> simp [Node.isDir]

lemma isFile_iff : t.isFile l = true ↔ ∃ v, t.node l = some (.file v) := by
  unfold isFile
  cases t.node l with
  | none => simp
  | some node => cases node <;> simp [Node.isFile]

lemma isLink_iff : t.isLink l = true ↔ ∃ tgt, t.node l = some (.link tgt) := by
  unfold isLink
  cases t.node l with
  | none => simp
  | some node => cases node <;> simp [Node.isLink]

/-- What stands at a location other than the root is in the entries. -/
lemma mem_entries {node : Node N α} (h : t.node l = some node) (hl : l ≠ []) :
    (l, node) ∈ t.entries := by
  rw [Tree.node, nodeIn, if_neg hl] at h
  obtain ⟨front, rest, hents, -⟩ := lookup_eq_some_iff.mp h
  rw [hents]
  simp

/-- Among entries without links there is no link anywhere. -/
lemma isLink_of_entries (h : t.entries.all (fun e => !e.2.isLink) = true) (l : Loc N) :
    t.isLink l = false := by
  rw [Bool.eq_false_iff]
  intro hlink
  obtain ⟨tgt, hnode⟩ := isLink_iff.mp hlink
  have hl : l ≠ [] := by
    rintro rfl
    cases hnode
  have hnot := all_eq_true.mp h _ (mem_entries hnode hl)
  cases hnot

lemma content_eq_some_iff {v : α} :
    t.content l = some v ↔ t.node l = some (.file v) := by
  unfold content
  cases t.node l with
  | none => simp
  | some node => cases node <;> simp

lemma node_parent {name : N} (h : t.node (l ++ [name]) ≠ none) :
    t.node l = some .dir := t.parents l name h

/-- Every place above an existing one is a directory. -/
lemma node_above {below : Loc N} (hbelow : below ≠ []) (h : t.node (l ++ below) ≠ none) :
    t.node l = some .dir := by
  induction below using reverseRecOn with
  | nil => exact absurd rfl hbelow
  | append_singleton rest name ih =>
    rw [← append_assoc] at h
    have hpar := node_parent h
    by_cases hrest : rest = []
    · rwa [hrest, append_nil] at hpar
    · exact ih hrest (by rw [hpar]; exact Option.some_ne_none _)

/-- There is nothing below a place that is no directory. -/
lemma node_below {below : Loc N} (hbelow : below ≠ []) (h : t.node l ≠ some .dir) :
    t.node (l ++ below) = none := by
  by_contra hne
  exact h (node_above hbelow hne)

variable (t)

/-- The place is not the root, and what is above it is a directory. -/
def hasParent (l : Loc N) : Bool := !l.isEmpty && t.isDir l.dropLast

/-- A file may be put at a place where there is nothing or a file. -/
def takesFile (l : Loc N) : Bool := t.hasParent l && (t.node l).all Node.isFile

/-- A directory may be made at a place where there is nothing. -/
def takesDir (l : Loc N) : Bool := t.hasParent l && (t.node l).isNone

variable {t}

lemma hasParent_iff :
    t.hasParent l = true ↔ ∃ parent name, l = parent ++ [name] ∧ t.node parent = some .dir := by
  unfold hasParent
  rcases eq_nil_or_concat l with rfl | ⟨parent, name, rfl⟩
  · simp
  · rw [concat_eq_append]
    have hne : (parent ++ [name]).isEmpty = false := by simp
    simp only [hne, Bool.not_false, Bool.true_and, dropLast_concat, isDir_iff]
    constructor
    · exact fun h => ⟨parent, name, rfl, h⟩
    · rintro ⟨other, last, heq, h⟩
      rwa [(append_inj' heq rfl).1]

lemma ne_nil_of_hasParent (h : t.hasParent l = true) : l ≠ [] := by
  rintro rfl
  simp [hasParent] at h

/-- Putting a node where no directory stands keeps the invariant. -/
lemma parents_cons (hpar : t.hasParent l = true) (hdir : t.node l ≠ some .dir)
    (new : Node N α) (k : Loc N) (name : N)
    (h : nodeIn ((l, new) :: t.entries) (k ++ [name]) ≠ none) :
    nodeIn ((l, new) :: t.entries) k = some .dir := by
  have hl := ne_nil_of_hasParent hpar
  obtain ⟨parent, last, rfl, habove⟩ := hasParent_iff.mp hpar
  rw [nodeIn_cons _ hl] at h ⊢
  by_cases hkey : k ++ [name] = parent ++ [last]
  · obtain ⟨rfl, -⟩ := append_inj' hkey rfl
    rw [if_neg (by simp)]
    exact habove
  · rw [if_neg hkey] at h
    have hk : nodeIn t.entries k = some .dir := t.parents k name h
    have hne : k ≠ parent ++ [last] := by
      rintro rfl
      exact hdir hk
    rw [if_neg hne]
    exact hk

variable (t)

/-- Put a file, in place of one that may be there. -/
def putFile (l : Loc N) (content : α) : Tree N α :=
  if h : t.takesFile l = true then
    { entries := (l, .file content) :: t.entries
      parents := by
        rw [takesFile, Bool.and_eq_true] at h
        refine parents_cons h.1 ?_ _
        intro hdir
        simp [hdir, Node.isFile] at h }
  else t

def makeDir (l : Loc N) : Tree N α :=
  if h : t.takesDir l = true then
    { entries := (l, .dir) :: t.entries
      parents := by
        rw [takesDir, Bool.and_eq_true] at h
        refine parents_cons h.1 ?_ _
        intro hdir
        simp [hdir] at h }
  else t

def makeLink (l : Loc N) (target : Route N) : Tree N α :=
  if h : t.takesDir l = true then
    { entries := (l, .link target) :: t.entries
      parents := by
        rw [takesDir, Bool.and_eq_true] at h
        refine parents_cons h.1 ?_ _
        intro hdir
        simp [hdir] at h }
  else t

/-- Remove a file or a link. -/
def removeNode (l : Loc N) : Tree N α :=
  if h : t.isDir l = false then
    { entries := t.entries.filter fun entry => decide (entry.1 ≠ l)
      parents := by
        intro k name hnode
        rw [nodeIn_filter _ (fun key => decide (key ≠ l)) (by simp)] at hnode
        split_ifs at hnode
        · have hk : nodeIn t.entries k = some .dir := t.parents k name hnode
          by_cases hroot : k = []
          · subst hroot
            rfl
          · have hne : k ≠ l := by
              rintro rfl
              rw [isDir_iff.mpr hk] at h
              cases h
            rw [nodeIn_filter _ (fun key => decide (key ≠ l)) hroot]
            simpa [hne] using hk
        · exact absurd rfl hnode }
  else t

/-- Remove everything at and below a place other than the root. -/
def removeTree (l : Loc N) : Tree N α :=
  if hl : l = [] then t
  else
    { entries := t.entries.filter fun entry => !decide (l <+: entry.1)
      parents := by
        intro k name hnode
        rw [nodeIn_filter _ (fun key => !decide (l <+: key)) (by simp)] at hnode
        split_ifs at hnode with hkept
        · have hk : nodeIn t.entries k = some .dir := t.parents k name hnode
          by_cases hroot : k = []
          · subst hroot
            rfl
          · have hnot : ¬ l <+: k := by
              intro hbegins
              simp [hbegins.trans (prefix_append k [name])] at hkept
            rw [nodeIn_filter _ (fun key => !decide (l <+: key)) hroot]
            simpa [hnot] using hk
        · exact absurd rfl hnode }

/-- A node may go from one place to another if neither is at or below the other and the second has
a parent. -/
def movable (source target : Loc N) : Bool :=
  t.hasParent target && !decide (source <+: target) && !decide (target <+: source)

lemma nodeIn_moveEntries {src tgt : Loc N} (hmov : t.movable src tgt = true)
    (l : Loc N) :
    nodeIn (moveEntries src tgt t.entries) l =
      if tgt <+: l then t.node (src ++ l.drop tgt.length)
      else if src <+: l then none
      else t.node l := by
  simp only [movable, Bool.and_eq_true, Bool.not_eq_eq_eq_not, Bool.not_true,
    decide_eq_false_iff_not] at hmov
  obtain ⟨⟨hpar, hsrc⟩, htgt⟩ := hmov
  have htargetNil := ne_nil_of_hasParent hpar
  have hsourceNil : src ≠ [] := by
    rintro rfl
    exact hsrc nil_prefix
  by_cases hroot : l = []
  · subst hroot
    rw [if_neg fun h => htargetNil (prefix_nil.mp h), if_neg fun h => hsourceNil (prefix_nil.mp h)]
    rfl
  · have hmoved : src ++ l.drop tgt.length ≠ [] := by simp [hsourceNil]
    simp only [node, nodeIn, hroot, hmoved, if_false, lookup_moveEntries]

/-- Take everything at and below `source` to `target`, in place of what is there. -/
def move (source target : Loc N) : Tree N α :=
  if h : t.movable source target = true then
    { entries := moveEntries source target t.entries
      parents := by
        intro k name hnode
        rw [nodeIn_moveEntries t h] at hnode ⊢
        have hmovable := h
        simp only [movable, Bool.and_eq_true, Bool.not_eq_eq_eq_not, Bool.not_true,
          decide_eq_false_iff_not] at hmovable
        obtain ⟨⟨hparent, hsource⟩, htarget⟩ := hmovable
        obtain ⟨above, last, rfl, habove⟩ := hasParent_iff.mp hparent
        by_cases hk : above ++ [last] <+: k
        · -- The parent has moved along.
          obtain ⟨below, rfl⟩ := hk
          rw [if_pos (prefix_append _ _), drop_left]
          rw [append_assoc, if_pos (prefix_append _ _), drop_left, ← append_assoc] at hnode
          exact node_parent hnode
        · rw [if_neg hk]
          by_cases hlast : above ++ [last] <+: k ++ [name]
          · -- The parent is the directory above the target.
            have heq : above ++ [last] = k ++ [name] :=
              (prefix_concat_iff.mp hlast).resolve_right hk
            obtain ⟨rfl, -⟩ := append_inj' heq rfl
            have hnot : ¬ source <+: above := fun hbegins =>
              hsource (hbegins.trans (prefix_append _ _))
            rw [if_neg hnot]
            exact habove
          · rw [if_neg hlast] at hnode
            split_ifs at hnode with hmoved
            · exact absurd rfl hnode
            · rw [if_neg fun hbegins => hmoved (hbegins.trans (prefix_append _ _))]
              exact node_parent hnode }
  else t

variable {t}

lemma node_putFile (h : t.takesFile l = true) (v : α) (k : Loc N) :
    (t.putFile l v).node k = if k = l then some (.file v) else t.node k := by
  have hl : l ≠ [] := ne_nil_of_hasParent (Bool.and_eq_true_iff.mp h).1
  rw [putFile, dif_pos h]
  exact nodeIn_cons t.entries hl _ k

lemma node_makeDir (h : t.takesDir l = true) (k : Loc N) :
    (t.makeDir l).node k = if k = l then some .dir else t.node k := by
  have hl : l ≠ [] := ne_nil_of_hasParent (Bool.and_eq_true_iff.mp h).1
  rw [makeDir, dif_pos h]
  exact nodeIn_cons t.entries hl _ k

lemma node_removeNode (h : t.isDir l = false) (k : Loc N) :
    (t.removeNode l).node k = if k = l then none else t.node k := by
  rw [removeNode, dif_pos h]
  by_cases hroot : k = []
  · subst hroot
    have hne : ([] : Loc N) ≠ l := by
      rintro rfl
      simp [isDir, Node.isDir] at h
    rw [if_neg hne]
    rfl
  · refine (nodeIn_filter _ (fun key => decide (key ≠ l)) hroot).trans ?_
    by_cases hk : k = l
    · simp [hk]
    · simp [hk, node]

lemma node_removeTree (hl : l ≠ []) (k : Loc N) :
    (t.removeTree l).node k = if l <+: k then none else t.node k := by
  rw [removeTree, dif_neg hl]
  by_cases hroot : k = []
  · subst hroot
    rw [if_neg fun h => hl (prefix_nil.mp h)]
    rfl
  · refine (nodeIn_filter _ (fun key => !decide (l <+: key)) hroot).trans ?_
    by_cases hk : l <+: k
    · simp [hk]
    · simp [hk, node]

lemma node_move {src tgt : Loc N} (h : t.movable src tgt = true) (k : Loc N) :
    (t.move src tgt).node k =
      if tgt <+: k then t.node (src ++ k.drop tgt.length)
      else if src <+: k then none
      else t.node k := by
  rw [move, dif_pos h]
  exact nodeIn_moveEntries t h k

end Tree

end ExperienceCodex.FileTree

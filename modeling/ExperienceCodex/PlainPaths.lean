import ExperienceCodex.FileResolve

/-!
# Operations on paths without links

When no link stands at a place or above it, the path down to the place leads there, and every
operation on the path is an elementary change of the tree at the place or a failure that changes
nothing.
-/

namespace ExperienceCodex.FileTree

open List

/-- The path from the root down to a place. -/
def wayTo {N : Type} (l : Loc N) : Route N := { absolute := true, steps := l.map .down }

namespace Tree

variable {N α : Type} [DecidableEq N] {t : Tree N α} {l : Loc N}

variable (t) in
/-- No link stands at the place or above it. -/
def NoLinks (l : Loc N) : Prop := ∀ k, k <+: l → t.isLink k = false

variable (t) in
/-- A file stands at the place or above it. -/
def fileAbove (l : Loc N) : Bool := l.inits.any t.isFile

lemma NoLinks.above {k : Loc N} (h : t.NoLinks l) (hk : k <+: l) : t.NoLinks k :=
  fun below hbelow => h below (hbelow.trans hk)

lemma NoLinks.node_ne {k : Loc N} (h : t.NoLinks l) (hk : k <+: l) (tgt : Route N) :
    t.node k ≠ some (.link tgt) := by
  intro hnode
  have hlink := h k hk
  rw [isLink_iff.mpr ⟨tgt, hnode⟩] at hlink
  cases hlink

lemma fileAbove_iff : t.fileAbove l = true ↔ ∃ k content, k <+: l ∧
    t.node k = some (.file content) := by
  simp only [fileAbove, any_eq_true, mem_inits, isFile_iff]
  constructor
  · rintro ⟨k, hk, content, hnode⟩
    exact ⟨k, content, hk, hnode⟩
  · rintro ⟨k, content, hk, hnode⟩
    exact ⟨k, hk, content, hnode⟩

/-- Everything above a directory is one. -/
lemma node_of_above_dir {k : Loc N} (h : t.node l = some .dir) (hk : k <+: l) :
    t.node k = some .dir := by
  obtain ⟨below, rfl⟩ := hk
  by_cases hbelow : below = []
  · rwa [hbelow, append_nil] at h
  · exact node_above hbelow (by rw [h]; exact Option.some_ne_none _)

/-- There is no file at or above a directory. -/
lemma fileAbove_of_dir (h : t.node l = some .dir) : t.fileAbove l = false := by
  rw [Bool.eq_false_iff, ne_eq, fileAbove_iff]
  rintro ⟨k, content, hk, hfile⟩
  rw [node_of_above_dir h hk] at hfile
  cases hfile

lemma fileAbove_concat (name : N) :
    t.fileAbove (l ++ [name]) = true ↔ t.fileAbove l = true ∨ t.isFile (l ++ [name]) = true := by
  simp only [fileAbove_iff, isFile_iff]
  constructor
  · rintro ⟨k, content, hk, hnode⟩
    rcases prefix_concat_iff.mp hk with rfl | hk
    · exact .inr ⟨content, hnode⟩
    · exact .inl ⟨k, content, hk, hnode⟩
  · rintro (⟨k, content, hk, hnode⟩ | ⟨content, hnode⟩)
    · exact ⟨k, content, hk.trans (prefix_append _ _), hnode⟩
    · exact ⟨l ++ [name], content, prefix_rfl, hnode⟩

/-- A file may be put where one is. -/
lemma takesFile_of_file {v : α} (hnode : t.node l = some (.file v)) :
    t.takesFile l = true := by
  -- a file is not at the root
  rcases eq_nil_or_concat l with rfl | ⟨parent, name, rfl⟩
  · cases t.node_root.symm.trans hnode
  · rw [concat_eq_append] at hnode ⊢
    have hthere : t.node (parent ++ [name]) ≠ none := by simp [hnode]
    have hpar := hasParent_iff.mpr ⟨parent, name, rfl, node_parent hthere⟩
    simp [takesFile, hpar, hnode, Node.isFile]

/-- In a directory a file may be put anywhere but in the place of a directory. -/
lemma takesFile_iff_not_dir {name : N} (hdir : t.node l = some .dir)
    (hlink : t.isLink (l ++ [name]) = false) :
    t.takesFile (l ++ [name]) = true ↔ t.node (l ++ [name]) ≠ some .dir := by
  have hpar : t.hasParent (l ++ [name]) = true := hasParent_iff.mpr ⟨l, name, rfl, hdir⟩
  rw [takesFile, hpar, Bool.true_and]
  cases hnode : t.node (l ++ [name]) with
  | none => simp
  | some node =>
    cases node with
    | file v => simp [Node.isFile]
    | dir => simp [Node.isFile]
    | link tgt =>
      rw [isLink_iff.mpr ⟨tgt, hnode⟩] at hlink
      cases hlink

variable (t) in
/-- The outcome of a walk without links. -/
def plainOutcome (l : Loc N) : Outcome N :=
  if (t.node l).isSome then .found l
  else if t.hasParent l then .missing l
  else if t.fileAbove l then .failed .notADirectory
  else .failed .notFound

section
variable (hnode : t.node l ≠ some .dir)
include hnode

/-- Below a place that is no directory nothing has a parent there. -/
lemma hasParent_below {below : Loc N} (hbelow : below ≠ []) : t.hasParent (l ++ below) = false := by
  rw [Bool.eq_false_iff, ne_eq, hasParent_iff]
  rintro ⟨parent, last, heq, hpar⟩
  obtain ⟨above, final, rfl⟩ := (eq_nil_or_concat' below).resolve_left hbelow
  rw [← append_assoc] at heq
  obtain ⟨rfl, -⟩ := append_inj' heq rfl
  by_cases habove : above = []
  · rw [habove, append_nil] at hpar
    exact hnode hpar
  · rw [node_below habove hnode] at hpar
    cases hpar

/-- Below a place that is no directory there is no further file. -/
lemma fileAbove_below (below : Loc N) :
    t.fileAbove (l ++ below) = t.fileAbove l := by
  rw [Bool.eq_iff_iff, fileAbove_iff, fileAbove_iff]
  constructor
  · rintro ⟨k, content, hk, hfile⟩
    rcases prefix_or_prefix_of_prefix hk (prefix_append l below) with hk | ⟨more, rfl⟩
    · exact ⟨k, content, hk, hfile⟩
    · by_cases hmore : more = []
      · rw [hmore, append_nil] at hfile
        exact ⟨l, content, prefix_rfl, hfile⟩
      · rw [node_below hmore hnode] at hfile
        cases hfile
  · rintro ⟨k, content, hk, hfile⟩
    exact ⟨k, content, hk.trans (prefix_append _ _), hfile⟩

/-- The outcome below a place that is no directory. -/
lemma plainOutcome_below {below : Loc N} (hbelow : below ≠ []) :
    t.plainOutcome (l ++ below) =
      if t.fileAbove l then .failed .notADirectory else .failed .notFound := by
  rw [plainOutcome, node_below hbelow hnode, hasParent_below hnode hbelow,
    fileAbove_below hnode below]
  simp

end

lemma resolve_plain_from (links : ℕ) (cur below : Loc N)
    (hcur : t.node cur = some .dir) (h : t.NoLinks (cur ++ below)) :
    t.resolve links cur (below.map .down) = t.plainOutcome (cur ++ below) := by
  induction below generalizing cur with
  | nil => simp [plainOutcome, hcur]
  | cons name rest ih =>
    have hsplit : cur ++ name :: rest = (cur ++ [name]) ++ rest := by simp
    rw [map_cons, resolve_down]
    rw [hsplit] at h ⊢
    have hempty : (rest.map PathStep.down).isEmpty = rest.isEmpty := by simp
    have hpar : t.hasParent (cur ++ [name]) = true :=
      hasParent_iff.mpr ⟨cur, name, rfl, hcur⟩
    have habove := fileAbove_concat (t := t) (l := cur) name
    rw [fileAbove_of_dir hcur] at habove
    rw [hempty]
    by_cases hrest : rest = []
    · subst hrest
      rw [append_nil] at h ⊢
      rw [plainOutcome, hpar]
      cases hnode : t.node (cur ++ [name]) with
      | none => simp
      | some node =>
        cases node with
        | dir => simp
        | file v => simp
        | link tgt => exact absurd hnode (h.node_ne prefix_rfl tgt)
    · have hne : rest.isEmpty = false := by simp [hrest]
      rw [hne]
      cases hnode : t.node (cur ++ [name]) with
      | none =>
        have hfile : t.fileAbove (cur ++ [name]) = false := by
          rw [Bool.eq_false_iff, ne_eq, habove, isFile_iff]
          simp [hnode]
        rw [plainOutcome_below (by rw [hnode]; simp) hrest, hfile]
        simp
      | some node =>
        cases node with
        | dir => exact ih (cur ++ [name]) hnode h
        | file v =>
          have hfile : t.fileAbove (cur ++ [name]) = true :=
            habove.mpr (.inr (isFile_iff.mpr ⟨v, hnode⟩))
          rw [plainOutcome_below (by rw [hnode]; simp) hrest, hfile]
          simp
        | link tgt => exact absurd hnode (h.node_ne (prefix_append _ rest) tgt)

section
variable (start : Loc N)

lemma locate_wayTo (h : t.NoLinks l) : t.locate start (wayTo l) = t.plainOutcome l := by
  simpa [locate, wayTo] using resolve_plain_from maxLinks [] l t.node_root h

lemma pathExists_wayTo (h : t.NoLinks l) : t.pathExists start (wayTo l) = (t.node l).isSome := by
  rw [pathExists, locate_wayTo start h, plainOutcome]
  split_ifs <;> simp_all

lemma pathIsDir_wayTo (h : t.NoLinks l) : t.pathIsDir start (wayTo l) = t.isDir l := by
  rw [pathIsDir, locate_wayTo start h, plainOutcome]
  split_ifs <;> simp_all [isDir]

lemma canonicalize_wayTo (h : t.NoLinks l) (hnode : t.node l ≠ none) :
    t.canonicalize start (wayTo l) = .ok l := by
  rw [canonicalize, locate_wayTo start h, plainOutcome,
    if_pos (Option.isSome_iff_ne_none.mpr hnode)]

lemma canonicalize_wayTo_none (h : t.NoLinks l) (hnode : t.node l = none) :
    ∃ error, t.canonicalize start (wayTo l) = .error error := by
  rw [canonicalize, locate_wayTo start h, plainOutcome, hnode, if_neg (by simp)]
  split_ifs
  · exact ⟨.notFound, rfl⟩
  · exact ⟨.notADirectory, rfl⟩
  · exact ⟨.notFound, rfl⟩

/-- The place that a path names, if its parent is a directory. -/
lemma entry_wayTo {name : N} (h : t.NoLinks (l ++ [name])) :
    t.entry start (wayTo (l ++ [name])) =
      if t.isDir l then .ok (l ++ [name])
      else if t.fileAbove l then .error .notADirectory
      else .error .notFound := by
  have hpar := locate_wayTo start (h.above (prefix_append l [name]))
  have hsteps : (wayTo (l ++ [name])).steps = l.map .down ++ [.down name] := by simp [wayTo]
  have hroute : { wayTo (l ++ [name]) with steps := l.map PathStep.down } = wayTo l := rfl
  unfold entry
  rw [hsteps, getLast?_concat, dropLast_concat, hroute, hpar]
  by_cases hdir : t.isDir l = true
  · have hnode := isDir_iff.mp hdir
    simp [plainOutcome, hnode, hdir]
  · rw [if_neg hdir, plainOutcome]
    cases hnode : t.node l with
    | some node =>
      cases node with
      | dir => exact absurd (isDir_iff.mpr hnode) hdir
      | file content =>
        have hfile : t.fileAbove l = true :=
          fileAbove_iff.mpr ⟨l, content, prefix_rfl, hnode⟩
        simp [hfile, hdir]
      | link tgt => exact absurd hnode (h.node_ne (prefix_append _ _) tgt)
    | none =>
      by_cases hhas : t.hasParent l = true
      · have hfile : t.fileAbove l = false := by
          obtain ⟨above, last, rfl, habove⟩ := hasParent_iff.mp hhas
          rw [Bool.eq_false_iff, ne_eq, fileAbove_concat, fileAbove_of_dir habove, isFile_iff]
          simp [hnode]
        simp [hhas, hfile]
      · by_cases hfile : t.fileAbove l = true
        · simp [hhas, hfile]
        · simp [hhas, hfile]

section
variable (h : t.NoLinks l)
include h

lemma writePlace_wayTo (htakes : t.takesFile l = true) :
    t.writePlace start (wayTo l) = .ok l := by
  rw [takesFile, Bool.and_eq_true] at htakes
  obtain ⟨hpar, hnode⟩ := htakes
  rw [writePlace, locate_wayTo start h, plainOutcome]
  cases hl : t.node l with
  | none => simp [hpar]
  | some node =>
    rw [hl] at hnode
    have hdir : t.isDir l = false := by
      rw [isDir, hl]
      cases node <;> simp_all [Node.isFile, Node.isDir]
    simp [hdir]

lemma writePlace_wayTo_error (htakes : t.takesFile l = false) :
    ∃ error, t.writePlace start (wayTo l) = .error error := by
  rw [writePlace, locate_wayTo start h, plainOutcome]
  cases hl : t.node l with
  | none =>
    have hpar : t.hasParent l = false := by simpa [takesFile, hl] using htakes
    by_cases hfile : t.fileAbove l = true
    · simp [hpar, hfile]
    · simp [hpar, hfile]
  | some node =>
    cases node with
    | dir => simp [isDir_iff.mpr hl]
    | file v =>
      rw [takesFile_of_file hl] at htakes
      cases htakes
    | link tgt => exact absurd hl (h.node_ne prefix_rfl tgt)

lemma writeFile_wayTo (htakes : t.takesFile l = true) (update : Option α → α) :
    t.writeFile start (wayTo l) update = .ok (t.putFile l (update (t.content l))) := by
  rw [writeFile, writePlace_wayTo start h htakes]
  rfl

lemma writeFile_wayTo_error (htakes : t.takesFile l = false)
    (update : Option α → α) : ∃ error, t.writeFile start (wayTo l) update = .error error := by
  obtain ⟨error, herr⟩ := writePlace_wayTo_error start h htakes
  exact ⟨error, by rw [writeFile, herr]; rfl⟩

end

lemma copy_wayTo [EmptyCollection α] {src : Loc N} {v : α} (hsrc : t.NoLinks src)
    (h : t.NoLinks l) (hcont : t.node src = some (.file v))
    (htakes : t.takesFile l = true) :
    t.copy start (wayTo src) (wayTo l) =
      .ok (t.putFile l (if l = src then ∅ else v)) := by
  rw [copy, canonicalize_wayTo start hsrc (by simp [hcont])]
  simp only [content_eq_some_iff.mpr hcont, writePlace_wayTo start h htakes]
  rfl

/-- A copy succeeds only from a file to a place that takes one. -/
lemma copy_wayTo_cases [EmptyCollection α] {src : Loc N} (hsrc : t.NoLinks src)
    (h : t.NoLinks l) :
    (∃ v, t.node src = some (.file v) ∧ t.takesFile l = true ∧
      t.copy start (wayTo src) (wayTo l) =
        .ok (t.putFile l (if l = src then ∅ else v))) ∨
    ∃ error, t.copy start (wayTo src) (wayTo l) = .error error := by
  cases hnode : t.node src with
  | none =>
    obtain ⟨error, herr⟩ := canonicalize_wayTo_none start hsrc hnode
    exact .inr ⟨error, by rw [copy, herr]⟩
  | some node =>
    have hfound := canonicalize_wayTo start hsrc (by simp [hnode])
    cases hcont : t.content src with
    | none => exact .inr ⟨.notARegularFile, by simp only [copy, hfound, hcont]⟩
    | some v =>
      have hfile := content_eq_some_iff.mp hcont
      cases htakes : t.takesFile l with
      | true =>
        exact .inl ⟨v, hnode ▸ hfile, rfl, copy_wayTo start hsrc h hfile htakes⟩
      | false =>
        obtain ⟨error, herr⟩ := writePlace_wayTo_error start h htakes
        exact .inr ⟨error, by simp only [copy, hfound, hcont, herr]; rfl⟩

lemma mkdir_wayTo {name : N} (h : t.NoLinks (l ++ [name])) (hdir : t.node l = some .dir)
    (hnone : t.node (l ++ [name]) = none) :
    t.mkdir start (wayTo (l ++ [name])) = .ok (t.makeDir (l ++ [name])) := by
  rw [mkdir, entry_wayTo start h, if_pos (isDir_iff.mpr hdir)]
  simp [hnone]

lemma NoLinks.of_node_eq {t' : Tree N α} (h : t.NoLinks l)
    (hnode : ∀ k, k <+: l → t'.isLink k = true → t.isLink k = true) : t'.NoLinks l := by
  intro k hk
  rw [Bool.eq_false_iff]
  intro hlink
  have := h k hk
  rw [hnode k hk hlink] at this
  cases this

/-- The node at every place after a directory has been made where there was nothing. -/
lemma node_makeDir_concat {name : N} (hdir : t.node l = some .dir)
    (hnone : t.node (l ++ [name]) = none) (k : Loc N) :
    (t.makeDir (l ++ [name])).node k = if k <+: l ++ [name] then some .dir else t.node k := by
  have htakes : t.takesDir (l ++ [name]) = true := by
    rw [takesDir, hasParent_iff.mpr ⟨l, name, rfl, hdir⟩, hnone]
    rfl
  rw [node_makeDir htakes]
  by_cases hk : k <+: l ++ [name]
  · rw [if_pos hk]
    rcases prefix_concat_iff.mp hk with rfl | hk
    · rw [if_pos rfl]
    · rw [node_of_above_dir hdir hk]
      simp
  · have hne : k ≠ l ++ [name] := by
      rintro rfl
      exact hk prefix_rfl
    rw [if_neg hk, if_neg hne]

/-- Making a directory and all those above it fails below a file, and otherwise makes every place
down to the last a directory. -/
lemma createDirAllRev_plain (h : t.NoLinks l) :
    (t.fileAbove l = true ∧ ∃ error,
      t.createDirAllRev start true (l.map PathStep.down).reverse = (.error error, t)) ∨
    (t.fileAbove l = false ∧ ∃ made,
      t.createDirAllRev start true (l.map PathStep.down).reverse = (.ok (), made) ∧
      ∀ k, made.node k = if k <+: l then some .dir else t.node k) := by
  induction l using List.reverseRecOn with
  | nil =>
    refine .inr ⟨fileAbove_of_dir t.node_root, t, rfl, ?_⟩
    intro k
    by_cases hk : k <+: []
    · rw [if_pos hk, prefix_nil.mp hk]
      rfl
    · rw [if_neg hk]
  | append_singleton parent name ih =>
    have hpar := h.above (prefix_append parent [name])
    have hsteps : ((parent ++ [name]).map PathStep.down).reverse =
        .down name :: (parent.map PathStep.down).reverse := by simp
    have hroute : (⟨true, (.down name :: (parent.map PathStep.down).reverse).reverse⟩ : Route N) =
        wayTo (parent ++ [name]) := by simp [wayTo]
    rw [hsteps]
    simp only [createDirAllRev, hroute]
    by_cases hdir : t.isDir parent = true
    · have hnode := isDir_iff.mp hdir
      have hentry := entry_wayTo start h
      rw [if_pos hdir] at hentry
      cases hlast : t.node (parent ++ [name]) with
      | none =>
        refine .inr ⟨?_, t.makeDir (parent ++ [name]), ?_, node_makeDir_concat hnode hlast⟩
        · rw [Bool.eq_false_iff, ne_eq, fileAbove_concat, fileAbove_of_dir hnode, isFile_iff]
          simp [hlast]
        · rw [mkdir_wayTo start h hnode hlast]
      | some node =>
        have hex : t.mkdir start (wayTo (parent ++ [name])) = .error .alreadyExists := by
          simp [mkdir, hentry, hlast]
        rw [hex]
        simp only [pathIsDir_wayTo start h]
        cases node with
        | dir =>
          have hlastDir := isDir_iff.mpr hlast
          refine .inr ⟨fileAbove_of_dir hlast, t, by rw [if_pos hlastDir], ?_⟩
          intro k
          by_cases hk : k <+: parent ++ [name]
          · rw [if_pos hk, node_of_above_dir hlast hk]
          · rw [if_neg hk]
        | file content =>
          have hnot : t.isDir (parent ++ [name]) = false := by simp [isDir, hlast, Node.isDir]
          refine .inl ⟨fileAbove_iff.mpr ⟨_, content, prefix_rfl, hlast⟩, .alreadyExists, ?_⟩
          rw [hnot, if_neg Bool.false_ne_true]
        | link tgt => exact absurd hlast (h.node_ne prefix_rfl tgt)
    · have hnone : t.node (parent ++ [name]) = none :=
        node_below (cons_ne_nil _ _) (mt isDir_iff.mpr hdir)
      have hentry := entry_wayTo start h
      rw [if_neg hdir] at hentry
      by_cases hfile : t.fileAbove parent = true
      · rw [if_pos hfile] at hentry
        have hmkdir : t.mkdir start (wayTo (parent ++ [name])) = .error .notADirectory := by
          simp [mkdir, hentry]
        have hnot : t.isDir (parent ++ [name]) = false := by simp [isDir, hnone]
        refine .inl ⟨(fileAbove_concat name).mpr (.inl hfile), .notADirectory, ?_⟩
        rw [hmkdir]
        simp only [pathIsDir_wayTo start h, hnot, Bool.false_eq_true, if_false]
      · rw [if_neg hfile] at hentry
        have hmkdir : t.mkdir start (wayTo (parent ++ [name])) = .error .notFound := by
          simp [mkdir, hentry]
        obtain ⟨hfile', -⟩ | ⟨-, above, habove, hnodes⟩ := ih hpar
        · exact absurd hfile' hfile
        · have hdirAbove : above.node parent = some .dir := by
            rw [hnodes, if_pos prefix_rfl]
          have hlast : above.node (parent ++ [name]) = none := by
            have hlonger : ¬ parent ++ [name] <+: parent := by
              intro hbeg
              have hlen := hbeg.length_le
              simp at hlen
            rw [hnodes, if_neg hlonger, hnone]
          have hlinks : above.NoLinks (parent ++ [name]) := by
            refine h.of_node_eq ?_
            intro k hk hlink
            rw [isLink, hnodes] at hlink
            by_cases hkparent : k <+: parent
            · rw [if_pos hkparent] at hlink
              cases hlink
            · rwa [if_neg hkparent] at hlink
          refine .inr ⟨?_, above.makeDir (parent ++ [name]), ?_, ?_⟩
          · rw [Bool.eq_false_iff, ne_eq, fileAbove_concat, isFile_iff]
            simp [hnone, hfile]
          · rw [hmkdir, habove]
            simp only [mkdir_wayTo start hlinks hdirAbove hlast]
          · intro k
            rw [node_makeDir_concat hdirAbove hlast, hnodes]
            by_cases hk : k <+: parent ++ [name]
            · rw [if_pos hk, if_pos hk]
            · rw [if_neg hk, if_neg hk, if_neg fun h => hk (h.trans (prefix_append _ _))]

lemma createDirAll_wayTo (h : t.NoLinks l) :
    (t.fileAbove l = true ∧ ∃ error, t.createDirAll start (wayTo l) = (.error error, t)) ∨
    (t.fileAbove l = false ∧ ∃ made, t.createDirAll start (wayTo l) = (.ok (), made) ∧
      ∀ k, made.node k = if k <+: l then some .dir else t.node k) :=
  createDirAllRev_plain start h

section
variable (h : t.NoLinks l)
include h

/-- A path names its place, or its parent is no directory. -/
lemma entry_wayTo_cases :
    (t.entry start (wayTo l) = .ok l ∧ (l = [] ∨ t.hasParent l = true)) ∨
      ((l ≠ [] ∧ t.node l = none) ∧ ∃ error, t.entry start (wayTo l) = .error error) := by
  rcases eq_nil_or_concat l with rfl | ⟨parent, name, rfl⟩
  · exact .inl ⟨by simp [entry, wayTo, canonicalize, locate], .inl rfl⟩
  · rw [concat_eq_append] at h ⊢
    rw [entry_wayTo start h]
    by_cases hdir : t.isDir parent = true
    · rw [if_pos hdir]
      exact .inl ⟨rfl, .inr (hasParent_iff.mpr ⟨parent, name, rfl, isDir_iff.mp hdir⟩)⟩
    · have hnone := node_below (cons_ne_nil name []) (mt isDir_iff.mpr hdir)
      rw [if_neg hdir]
      refine .inr ⟨⟨by simp, hnone⟩, ?_⟩
      by_cases hfile : t.fileAbove parent = true
      · exact ⟨_, if_pos hfile⟩
      · exact ⟨_, if_neg hfile⟩

lemma entry_wayTo_of_node (hnode : t.node l ≠ none) :
    t.entry start (wayTo l) = .ok l := by
  rcases entry_wayTo_cases start h with ⟨hentry, -⟩ | ⟨⟨-, hnone⟩, -⟩
  · exact hentry
  · exact absurd hnone hnode

lemma removeFile_wayTo {v : α} (hnode : t.node l = some (.file v)) :
    t.removeFile start (wayTo l) = .ok (t.removeNode l) := by
  have hdir : t.isDir l = false := by simp [isDir, hnode, Node.isDir]
  simp [removeFile, entry_wayTo_of_node start h (by simp [hnode]), hnode, hdir]

lemma removeFile_wayTo_dir (hnode : t.node l = some .dir) :
    t.removeFile start (wayTo l) = .error .isADirectory := by
  simp [removeFile, entry_wayTo_of_node start h (by simp [hnode]), hnode, isDir_iff.mpr hnode]

lemma removeDirAll_wayTo (hnode : t.node l = some .dir) :
    t.removeDirAll start (wayTo l) = .ok (t.removeTree l) := by
  simp [removeDirAll, entry_wayTo_of_node start h (by simp [hnode]), hnode]

end

/-- What stands below an empty directory. -/
lemma node_of_isEmptyDir {below : Loc N} (h : t.isEmptyDir l = true) (hbelow : below ≠ []) :
    t.node (l ++ below) = none := by
  have hne : l ++ below ≠ [] := by simp [hbelow]
  rw [node, nodeIn, if_neg hne, lookup_eq_none_iff]
  intro entry hentry
  rw [isEmptyDir, all_eq_true] at h
  have hthis := h entry hentry
  rw [bne_iff_ne]
  intro heq
  rw [← heq] at hthis
  simp [hbelow] at hthis

/-- A rename that succeeds does nothing or takes everything at the first place to the second. -/
lemma rename_wayTo_cases {src target : Loc N} (hsrc : t.NoLinks src)
    (htgt : t.NoLinks target) :
    (src = target ∧ t.rename start (wayTo src) (wayTo target) = .ok t) ∨
    (t.movable src target = true ∧ t.node src ≠ none ∧
      (t.isDir target = true → t.isDir src = true) ∧
      (∀ below, below ≠ [] → t.node (target ++ below) = none) ∧
      t.rename start (wayTo src) (wayTo target) = .ok (t.move src target)) ∨
    ∃ error, t.rename start (wayTo src) (wayTo target) = .error error := by
  rcases entry_wayTo_cases start hsrc with ⟨hs, -⟩ | ⟨-, error, hs⟩
  swap
  · exact .inr (.inr ⟨error, by simp only [rename, hs]⟩)
  rcases entry_wayTo_cases start htgt with ⟨hd, hpar⟩ | ⟨-, error, hd⟩
  swap
  · exact .inr (.inr ⟨error, by simp only [rename, hs, hd]⟩)
  have hmoves : t.node src ≠ none → ¬ src <+: target →
      (∀ below, below ≠ [] → t.node (target ++ below) = none) →
      t.movable src target = true := by
    intro hnode hapart hfree
    have hnot : ¬ target <+: src := by
      rintro ⟨below, rfl⟩
      by_cases hbelow : below = []
      · rw [hbelow, append_nil] at hapart
        exact hapart prefix_rfl
      · exact hnode (hfree below hbelow)
    rcases hpar with rfl | hpar
    · exact absurd nil_prefix hnot
    · simp [movable, hpar, hapart, hnot]
  simp only [rename, hs, hd]
  cases hsNode : t.node src with
  | none => exact .inr (.inr ⟨.notFound, rfl⟩)
  | some sNode =>
    rw [hsNode] at hmoves
    have hex := Option.some_ne_none sNode
    cases hdNode : t.node target with
    | none =>
      have hfree : ∀ below, below ≠ [] → t.node (target ++ below) = none :=
        fun below hbelow => node_below hbelow (by simp [hdNode])
      by_cases hinside : src <+: target
      · exact .inr (.inr ⟨.invalidInput, if_pos hinside⟩)
      · exact .inr (.inl ⟨hmoves hex hinside hfree, hex, by simp [isDir, hdNode], hfree,
          if_neg hinside⟩)
    | some dNode =>
      cases sNode with
      | link link => exact absurd hsNode (hsrc.node_ne prefix_rfl link)
      | dir =>
        cases dNode with
        | link link => exact absurd hdNode (htgt.node_ne prefix_rfl link)
        | file v => exact .inr (.inr ⟨.notADirectory, rfl⟩)
        | dir =>
          by_cases hsame : src = target
          · exact .inl ⟨hsame, if_pos hsame⟩
          · by_cases hinside : src <+: target
            · exact .inr (.inr ⟨.invalidInput, by simp [hsame, hinside]⟩)
            · by_cases hempty : t.isEmptyDir target = true
              · have hfree : ∀ below, below ≠ [] → t.node (target ++ below) = none :=
                  fun below => node_of_isEmptyDir hempty
                exact .inr (.inl ⟨hmoves hex hinside hfree, hex,
                  fun _ => isDir_iff.mpr hsNode, hfree, by simp [hsame, hinside, hempty]⟩)
              · exact .inr (.inr ⟨.directoryNotEmpty, by simp [hsame, hinside, hempty]⟩)
      | file v =>
        cases dNode with
        | link link => exact absurd hdNode (htgt.node_ne prefix_rfl link)
        | dir => exact .inr (.inr ⟨.isADirectory, rfl⟩)
        | file other =>
          by_cases hsame : src = target
          · exact .inl ⟨hsame, if_pos hsame⟩
          · have hfree : ∀ below, below ≠ [] → t.node (target ++ below) = none :=
              fun below hbelow => node_below hbelow (by simp [hdNode])
            have hapart : ¬ src <+: target := by
              rintro ⟨below, rfl⟩
              have hbelow : below ≠ [] := by
                rintro rfl
                exact hsame (append_nil _).symm
              have hdir := node_above hbelow (by rw [hdNode]; exact Option.some_ne_none _)
              rw [hsNode] at hdir
              cases hdir
            exact .inr (.inl ⟨hmoves hex hapart hfree, hex,
              by simp [isDir, hdNode, Node.isDir], hfree, if_neg hsame⟩)

end

end Tree

end ExperienceCodex.FileTree

import ExperienceCodex.FileOps

/-!
# Where paths lead

Facts about walking a path.  Whatever a path leads to is real: it is no link, and everything above
it is a directory.  A path that is walked in two parts leads where its second part leads from the
directory in which the first part ends.  Along a path without links the outcome is read off the
nodes of the tree.
-/

namespace ExperienceCodex.FileTree

namespace Tree

variable {N α : Type} [DecidableEq N] {t : Tree N α}

variable (t) in
/-- How a walk goes on at a link. -/
def followLink : ℕ → Loc N → List (PathStep N) → Outcome N
  | 0, _, _ => .failed .tooManyLinks
  | links + 1, current, steps => t.resolve links current steps

variable (links : ℕ)

variable (current : Loc N)

@[simp] lemma resolve_nil :
    t.resolve links current [] = .found current := by
  cases links <;> rfl

@[simp] lemma resolve_here (rest : List (PathStep N)) :
    t.resolve links current (.here :: rest) = t.resolve links current rest := by
  cases links <;> rfl

@[simp] lemma resolve_up (rest : List (PathStep N)) :
    t.resolve links current (.up :: rest) = t.resolve links current.dropLast rest := by
  cases links <;> rfl

lemma resolve_down (name : N) (rest : List (PathStep N)) :
    t.resolve links current (.down name :: rest) =
      match t.node (current ++ [name]) with
      | some .dir => t.resolve links (current ++ [name]) rest
      | some (.file _) =>
        if rest.isEmpty then .found (current ++ [name]) else .failed .notADirectory
      | some (.link tgt) =>
        t.followLink links (if tgt.absolute then [] else current) (tgt.steps ++ rest)
      | none => if rest.isEmpty then .missing (current ++ [name]) else .failed .notFound := by
  cases links <;> rfl

lemma node_dropLast {l : Loc N} (h : t.node l = some .dir) : t.node l.dropLast = some .dir := by
  rcases List.eq_nil_or_concat l with rfl | ⟨parent, name, rfl⟩
  · rfl
  · rw [List.concat_eq_append] at h ⊢
    rw [List.dropLast_concat]
    exact node_parent (by rw [h]; exact Option.some_ne_none _)

/-- An induction over a walk: over the number of links, and then over the path. -/
lemma resolve_induction {motive : ℕ → Loc N → List (PathStep N) → Prop}
    (nil : ∀ links current, t.node current = some .dir → motive links current [])
    (here : ∀ links current rest, t.node current = some .dir → motive links current rest →
      motive links current (.here :: rest))
    (up : ∀ links current rest, t.node current = some .dir → motive links current.dropLast rest →
      motive links current (.up :: rest))
    (dir : ∀ links current name rest, t.node current = some .dir →
      t.node (current ++ [name]) = some .dir → motive links (current ++ [name]) rest →
      motive links current (.down name :: rest))
    (file : ∀ links current name rest v, t.node current = some .dir →
      t.node (current ++ [name]) = some (.file v) → motive links current (.down name :: rest))
    (link : ∀ links current name rest tgt, t.node current = some .dir →
      t.node (current ++ [name]) = some (.link tgt) →
      (∀ fewer, links = fewer + 1 → ∀ more,
        motive fewer (if tgt.absolute then [] else current) (tgt.steps ++ more)) →
      motive links current (.down name :: rest))
    (missing : ∀ links current name rest, t.node current = some .dir →
      t.node (current ++ [name]) = none → motive links current (.down name :: rest))
    (links : ℕ) (current : Loc N) (steps : List (PathStep N))
    (hcur : t.node current = some .dir) : motive links current steps := by
  induction links using Nat.strong_induction_on generalizing current steps with
  | _ links ih =>
    induction steps generalizing current with
    | nil => exact nil links current hcur
    | cons step rest ihrest =>
      cases step with
      | here => exact here links current rest hcur (ihrest current hcur)
      | up =>
        exact up links current rest hcur (ihrest current.dropLast (node_dropLast hcur))
      | down name =>
        cases hnode : t.node (current ++ [name]) with
        | none => exact missing links current name rest hcur hnode
        | some node =>
          cases node with
          | dir => exact dir links current name rest hcur hnode (ihrest _ hnode)
          | file v => exact file links current name rest v hcur hnode
          | link tgt =>
            refine link links current name rest tgt hcur hnode ?_
            intro fewer hlinks more
            exact ih fewer (by omega) _ _ (by cases tgt.absolute <;> [exact hcur; rfl])

/-- Something that is no link stands at the place. -/
def Real (t : Tree N α) (l : Loc N) : Prop := t.node l ≠ none ∧ t.isLink l = false

lemma real_of_dir {l : Loc N} (h : t.node l = some .dir) : t.Real l := by
  simp [Real, isLink, h, Node.isLink]

lemma real_of_file {l : Loc N} {v : α} (h : t.node l = some (.file v)) :
    t.Real l := by
  simp [Real, isLink, h, Node.isLink]

/-- What the outcome of a walk says about the tree. -/
def OutcomeReal (t : Tree N α) : Outcome N → Prop
  | .found l => t.Real l
  | .missing l => t.node l = none ∧ t.hasParent l = true
  | .failed _ => True

lemma resolve_real {current : Loc N} (steps : List (PathStep N))
    (hcur : t.node current = some .dir) : t.OutcomeReal (t.resolve links current steps) := by
  refine resolve_induction
    (motive := fun links current steps => t.OutcomeReal (t.resolve links current steps))
    ?_ ?_ ?_ ?_ ?_ ?_ ?_ links current steps hcur
  · intro links current hdir
    rw [resolve_nil]
    exact real_of_dir hdir
  · intro links current rest _ ih
    rwa [resolve_here]
  · intro links current rest _ ih
    rwa [resolve_up]
  · intro links current name rest _ hnode ih
    rw [resolve_down, hnode]
    exact ih
  · intro links current name rest v _ hnode
    rw [resolve_down, hnode]
    by_cases hrest : rest.isEmpty = true
    · simp only [hrest, if_true]
      exact real_of_file hnode
    · simp only [hrest, if_false, Bool.false_eq_true]
      trivial
  · intro links current name rest tgt _ hnode ih
    rw [resolve_down, hnode]
    cases links with
    | zero => trivial
    | succ fewer => exact ih fewer rfl rest
  · intro links current name rest hdir hnode
    rw [resolve_down, hnode]
    by_cases hrest : rest.isEmpty = true
    · simp only [hrest, if_true]
      exact ⟨hnode, hasParent_iff.mpr ⟨current, name, rfl, hdir⟩⟩
    · simp only [hrest, if_false, Bool.false_eq_true]
      trivial

lemma locate_real (start : Loc N) (route : Route N) : t.OutcomeReal (t.locate start route) := by
  unfold locate
  split_ifs with habsolute hstart
  · exact resolve_real maxLinks route.steps t.node_root
  · exact resolve_real maxLinks route.steps (isDir_iff.mp hstart)
  · trivial

/-- Walking a path in two parts: the second part is walked from the directory in which the first
ends, or there is no such directory and the walk fails. -/
lemma resolve_append {current : Loc N} (first : List (PathStep N))
    (hcur : t.node current = some .dir) :
    (∃ d fewer, t.resolve links current first = .found d ∧ t.node d = some .dir ∧
      ∀ rest, t.resolve links current (first ++ rest) = t.resolve fewer d rest) ∨
    ((∀ d, t.resolve links current first = .found d → t.node d ≠ some .dir) ∧
      ∀ rest, rest ≠ [] → ∃ error, t.resolve links current (first ++ rest) = .failed error) := by
  refine resolve_induction
    (motive := fun links current first =>
      (∃ d fewer, t.resolve links current first = .found d ∧ t.node d = some .dir ∧
        ∀ rest, t.resolve links current (first ++ rest) = t.resolve fewer d rest) ∨
      ((∀ d, t.resolve links current first = .found d → t.node d ≠ some .dir) ∧
        ∀ rest, rest ≠ [] → ∃ error, t.resolve links current (first ++ rest) = .failed error))
    ?_ ?_ ?_ ?_ ?_ ?_ ?_ links current first hcur
  · intro links current hdir
    exact .inl ⟨current, links, resolve_nil links current, hdir, fun rest => rfl⟩
  · intro links current more _ ih
    simpa only [List.cons_append, resolve_here] using ih
  · intro links current more _ ih
    simpa only [List.cons_append, resolve_up] using ih
  · intro links current name more _ hnode ih
    simpa only [List.cons_append, resolve_down, hnode] using ih
  · intro links current name more v _ hnode
    refine .inr ⟨?_, ?_⟩
    · intro d hfound
      rw [resolve_down, hnode] at hfound
      by_cases hmore : more.isEmpty = true
      · simp only [hmore, if_true, Outcome.found.injEq] at hfound
        rw [← hfound, hnode]
        simp
      · simp only [hmore, if_false, Bool.false_eq_true, reduceCtorEq] at hfound
    · intro rest hrest
      rw [List.cons_append, resolve_down, hnode]
      exact ⟨.notADirectory, by simp [hrest]⟩
  · intro links current name more tgt _ hnode ih
    simp only [List.cons_append, resolve_down, hnode]
    cases links with
    | zero =>
      refine .inr ⟨?_, ?_⟩
      · intro d hfound
        cases hfound
      · exact fun rest _ => ⟨.tooManyLinks, rfl⟩
    | succ fewer => simpa only [followLink, List.append_assoc] using ih fewer rfl more
  · intro links current name more _ hnode
    refine .inr ⟨?_, ?_⟩
    · intro d hfound
      rw [resolve_down, hnode] at hfound
      by_cases hmore : more.isEmpty = true
      · simp only [hmore, if_true, reduceCtorEq] at hfound
      · simp only [hmore, if_false, Bool.false_eq_true, reduceCtorEq] at hfound
    · intro rest hrest
      rw [List.cons_append, resolve_down, hnode]
      exact ⟨.notFound, by simp [hrest]⟩

end Tree

end ExperienceCodex.FileTree

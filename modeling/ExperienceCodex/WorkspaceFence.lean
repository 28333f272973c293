import ExperienceCodex.PathGuard

/-!
# The workspace fence and symbolic links

Where an accepted path leads when the operating system follows every link in it.  The guard asks
whether the path exists and climbs to the nearest part that does.  A dangling link does not exist,
so the guard looks at the directory it stands in, while a write goes where the link points.  And the
guard compares lowercased texts, so that a place outside the workspace may look like one inside.
These are the only two ways out.
-/

namespace ExperienceCodex

open Text FileTree

/-- A place outside the workspace whose text the guard takes for one inside. -/
def Lookalike (root l : Place) : Prop := ¬ root <+: l ∧ looksInside root l = true

namespace Host

variable (host : Host)

/-- The entry that the last component of a path names. -/
def entry (path : String) : Except IoError Place :=
  match parsePath path with
  | none => .error .notFound
  | some route => host.tree.entry host.cwd route

/-- With every link followed a path leads to the place, where something is or may be created. -/
def Reaches (path : String) (l : Place) : Prop :=
  host.locate path = .found l ∨ host.locate path = .missing l

/-- A path exists at the place, or is a name that is free in the directory at the place. -/
def Stands (path : String) (d : Place) : Prop :=
  host.locate path = .found d ∨
    ∃ name, host.entry path = .ok (d ++ [name]) ∧ host.tree.node (d ++ [name]) = none

/-- A path names a dangling link that ends at the place. -/
def DanglesTo (path : String) (l : Place) : Prop :=
  (∃ e, host.entry path = .ok e ∧ host.tree.isLink e = true) ∧ host.locate path = .missing l

variable {host}

lemma canonicalize_real {path : String} {l : Place} (h : host.canonicalize path = .ok l) :
    host.tree.Real l := by
  unfold canonicalize locate at h
  cases hparse : parsePath path with
  | none =>
    rw [hparse] at h
    cases h
  | some route =>
    rw [hparse] at h
    have hreal := Tree.locate_real (t := host.tree) host.cwd route
    split at h
    · next found hfound =>
      cases h
      change host.tree.locate host.cwd route = .found l at hfound
      rw [hfound] at hreal
      exact hreal
    · cases h
    · cases h

lemma entry_render (above : Place) (name : FileName) :
    host.entry (render (above ++ [name])) =
      match host.locate (render above) with
      | .found parent =>
        if host.tree.isDir parent then .ok (parent ++ [name]) else .error .notADirectory
      | .missing _ => .error .notFound
      | .failed error => .error error := by
  rw [entry, parsePath_render, locate_render]
  simp only [Tree.entry, Tree.locate, List.map_append, List.map_singleton, List.getLast?_concat,
    List.dropLast_concat, if_true]
  cases host.tree.resolve maxLinks [] (above.map .down) <;> rfl

variable (host) in
/-- How the last component of a path is walked. -/
lemma locate_render_concat (above : Place) (name : FileName) :
    (∃ d fewer, host.locate (render above) = .found d ∧ host.tree.node d = some .dir ∧
      host.locate (render (above ++ [name])) =
        host.tree.resolve fewer d [.down name]) ∨
    ((∀ d, host.locate (render above) = .found d → host.tree.node d ≠ some .dir) ∧
      ∃ error, host.locate (render (above ++ [name])) = .failed error) := by
  rw [locate_render, locate_render, List.map_append, List.map_singleton]
  rcases Tree.resolve_append (t := host.tree) maxLinks (above.map .down)
      (Tree.node_root host.tree) with
    ⟨d, fewer, hfound, hdir, happend⟩ | ⟨hnot, hfailed⟩
  · exact .inl ⟨d, fewer, hfound, hdir, happend _⟩
  · exact .inr ⟨hnot, hfailed _ (List.cons_ne_nil _ _)⟩

lemma missing_cases {above l : Place} {name : FileName}
    (h : host.locate (render (above ++ [name])) = .missing l) :
    ∃ d, host.locate (render above) = .found d ∧
      host.entry (render (above ++ [name])) = .ok (d ++ [name]) ∧
      (host.tree.node (d ++ [name]) = none ∧ l = d ++ [name] ∨
        host.tree.isLink (d ++ [name]) = true) := by
  rcases locate_render_concat host above name with
    ⟨d, fewer, hfound, hdir, hlast⟩ | ⟨-, error, hfailed⟩
  · refine ⟨d, hfound, ?_, ?_⟩
    · simp only [entry_render, hfound, Tree.isDir_iff.mpr hdir, if_true]
    · rw [hlast, Tree.resolve_down] at h
      cases hnode : host.tree.node (d ++ [name]) with
      | none =>
        rw [hnode] at h
        exact .inl ⟨rfl, by simpa using h.symm⟩
      | some node =>
        rw [hnode] at h
        cases node with
        | dir => simp at h
        | file content => simp at h
        | link target => exact .inr (Tree.isLink_iff.mpr ⟨target, hnode⟩)
  · rw [hfailed] at h
    cases h

lemma locate_of_entry_none {above d : Place} {name last : FileName}
    (hentry : host.entry (render (above ++ [name])) = .ok (d ++ [last]))
    (hnone : host.tree.node (d ++ [last]) = none) :
    host.locate (render (above ++ [name])) = .missing (d ++ [last]) := by
  rcases locate_render_concat host above name with
    ⟨parent, fewer, hfound, hdir, hlast⟩ | ⟨hnot, -⟩
  · simp only [entry_render, hfound, Tree.isDir_iff.mpr hdir, if_true, Except.ok.injEq] at hentry
    rw [hlast, Tree.resolve_down, hentry, hnone]
    rfl
  · rw [entry_render] at hentry
    split at hentry
    · next parent hfound =>
      rw [if_neg (mt Tree.isDir_iff.mp (hnot parent hfound))] at hentry
      cases hentry
    · cases hentry
    · cases hentry

end Host

/-- The guard has looked at the place of an accepted path that exists. -/
lemma looksInside_of_found {host : Host} {root l d : Place} {fuel : ℕ}
    (hcheck : ancestorCheck host.view (rootText root) (fuel + 1) (render l) = .ok ())
    (hfound : host.locate (render l) = .found d) : looksInside root d = true := by
  rw [ancestorCheck_found host _ fuel hfound] at hcheck
  by_contra hnot
  rw [looksInside] at hnot
  rw [if_neg hnot] at hcheck
  cases hcheck

def outsideName : FileName := ⟨"outside", by decide⟩
def outName : FileName := ⟨"out", by decide⟩
def newName : FileName := ⟨"new", by decide⟩

/-- A workspace with a directory beside it. -/
def plainHost : Host where
  tree := (Tree.empty.makeDir [wsName]).makeDir [outsideName]
  cwd := []

/-- In the workspace, a link to a directory of the workspace. -/
def linkedHost : Host where
  tree := (plainHost.tree.makeDir [wsName, newName]).makeLink [wsName, outName]
    { absolute := true, steps := [.down wsName, .down newName] }
  cwd := []

/-- In the workspace, a link to a name outside that is not taken. -/
def danglingHost : Host where
  tree := plainHost.tree.makeLink [wsName, outName]
    { absolute := true, steps := [.down outsideName, .down newName] }
  cwd := []

/-- So does a link to a directory whose name differs from the workspace's in case only. -/
example : looksInside [wsName] [⟨"WS", by decide⟩] = true := by decide +kernel

end ExperienceCodex

import ExperienceCodex.Safety
import ExperienceCodex.FileResolve

/-!
# The disk under the path texts

The program names files by path texts.  A path text is split at its slashes into names and dots,
and what it then leads to is a question to the file tree of the host.  A canonical path text is the
text of a location.
-/

namespace ExperienceCodex

open List Text FileTree

/-- What an entry of a directory may be called. -/
def IsFileName (name : String) : Prop :=
  name ≠ "" ∧ name ≠ "." ∧ name ≠ ".." ∧ '/' ∉ name.toList

instance (name : String) : Decidable (IsFileName name) :=
  inferInstanceAs (Decidable (_ ∧ _ ∧ _ ∧ _))

abbrev FileName := { name : String // IsFileName name }

lemma isFileName_small : IsFileName "ws" ∧ IsFileName "backup" := by decide

/-- The names of the workspace and of the backups in small trees. -/
def wsName : FileName := ⟨"ws", isFileName_small.1⟩
def backupName : FileName := ⟨"backup", isFileName_small.2⟩

/-- A place on the disk. -/
abbrev Place := Loc FileName

/-- The path text of a place. -/
def render (l : Place) : String := "/" ++ String.intercalate "/" (l.map (·.val))

def fileName? (piece : String) : Option FileName :=
  if h : IsFileName piece then some ⟨piece, h⟩ else none

/-- A piece between slashes; empty pieces and single dots are skipped. -/
def pieceStep (piece : String) : Option (PathStep FileName) :=
  if piece = ".." then some .up else (fileName? piece).map .down

/-- How the operating system reads a path text.  The empty text is no path, and a path that ends
in a slash or a dot is one of a directory. -/
def parsePath (text : String) : Option (Route FileName) :=
  if text.isEmpty then none
  else
    let pieces := splitAtChars (· == '/') text
    let steps := pieces.filterMap pieceStep
    let trailing := !steps.isEmpty &&
      (pieces.getLast? == some "" || pieces.getLast? == some ".")
    some { absolute := startsWith text "/", steps := if trailing then steps ++ [.here] else steps }

/-- The file tree of the host and the directory that the process works in. -/
structure Host where
  tree : Tree FileName ByteArray
  cwd : Place

namespace Host

variable (host : Host)

/-- Where a path text leads. -/
def locate (path : String) : Outcome FileName :=
  match parsePath path with
  | none => .failed .notFound
  | some route => host.tree.locate host.cwd route

def canonicalize (path : String) : Except IoError Place :=
  match host.locate path with
  | .found l => .ok l
  | .missing _ => .error .notFound
  | .failed error => .error error

/-- The questions that the path guard asks, answered by the host. -/
def view : FsView where
  canonicalize path :=
    match host.canonicalize path with
    | .ok l => .ok (render l)
    | .error error => .error error.display
  pathExists path :=
    match host.locate path with
    | .found _ => true
    | _ => false
  isFile path :=
    match host.locate path with
    | .found l => host.tree.isFile l
    | _ => false

end Host

variable (l : Place)

lemma toList_render :
    (render l).toList = '/' :: ['/'].intercalate (l.map fun name => name.val.toList) := by
  have hslash : "/".toList = ['/'] := rfl
  rw [render, String.toList_append, hslash, String.toList_intercalate, hslash, map_map]
  rfl

lemma splitAtChars_render :
    splitAtChars (· == '/') (render l) = "" :: if l = [] then [""] else l.map (·.val) := by
  have hnames : ∀ piece ∈ ([] : List Char) :: l.map (fun name => name.val.toList),
      '/' ∉ piece := by
    intro piece hpiece
    rcases mem_cons.mp hpiece with rfl | hpiece
    · exact not_mem_nil
    · obtain ⟨name, -, rfl⟩ := mem_map.mp hpiece
      exact name.property.2.2.2
  rw [splitAtChars, toList_render]
  by_cases hl : l = []
  · subst hl
    decide
  · have hsplit := splitOn_intercalate '/' hnames (cons_ne_nil _ _)
    rw [intercalate_cons_of_ne_nil (mt map_eq_nil_iff.mp hl)] at hsplit
    rw [if_neg hl]
    refine (congrArg (map String.ofList) hsplit).trans ?_
    simp [Function.comp_def]

variable (name : FileName)

@[simp] lemma fileName?_val : fileName? name.val = some name := by
  simp [fileName?, name.property]

lemma fileName?_eq_some_iff {piece : String} {name : FileName} :
    fileName? piece = some name ↔ name.val = piece := by
  unfold fileName?
  by_cases h : IsFileName piece
  · simp only [h, dif_pos, Option.some.injEq, Subtype.ext_iff]
    exact eq_comm
  · simp only [h, dif_neg, not_false_eq_true, reduceCtorEq, false_iff]
    rintro rfl
    exact h name.property

@[simp] lemma pieceStep_val : pieceStep name.val = some (.down name) := by
  rw [pieceStep, if_neg name.property.2.2.1, fileName?_val]
  rfl

lemma startsWith_render : startsWith (render l) "/" = true := by
  rw [startsWith, toList_render]
  rfl

lemma render_ne_empty : (render l).isEmpty = false := by
  rw [Bool.eq_false_iff, ne_eq, String.isEmpty_iff, ← String.toList_inj, toList_render]
  simp

/-- The text of a place is read back as the way down to it. -/
lemma parsePath_render :
    parsePath (render l) = some { absolute := true, steps := l.map .down } := by
  unfold parsePath
  rw [render_ne_empty, splitAtChars_render, startsWith_render]
  by_cases hl : l = []
  · subst hl
    decide
  · have hsteps : ("" :: l.map (·.val)).filterMap pieceStep = l.map .down := by
      rw [filterMap_cons, filterMap_map]
      have hnone : pieceStep "" = none := by decide
      have hsome : pieceStep ∘ (fun name : FileName => name.val) = fun name => some (.down name) :=
        funext pieceStep_val
      rw [hnone, hsome, filterMap_eq_map']
    obtain ⟨above, last, rfl⟩ := (eq_nil_or_concat' l).resolve_left hl
    have hlast : ("" :: (above ++ [last]).map (·.val)).getLast? = some last.val := by
      simp [getLast?_cons]
    simp only [if_neg hl, hsteps, hlast, Bool.false_eq_true, if_false, Option.some.injEq,
      Route.mk.injEq, true_and]
    have hname := last.property
    rw [if_neg]
    simp [hname.1, hname.2.1]

lemma render_injective : Function.Injective render := by
  intro l l' h
  have hparse := parsePath_render l
  rw [h, parsePath_render l'] at hparse
  have hsteps := congrArg Route.steps (Option.some.inj hparse)
  refine map_injective_iff.mpr ?_ hsteps.symm
  intro name name' hname
  exact PathStep.down.inj hname

lemma Host.locate_render (host : Host) (l : Place) :
    host.locate (render l) = host.tree.resolve maxLinks [] (l.map .down) := by
  rw [locate, parsePath_render]
  rfl

/-- The text of a place and of one below it. -/
lemma toList_render_append (l below : Place) (hbelow : below ≠ []) :
    (render (l ++ below)).toList =
      (if l = [] then [] else (render l).toList) ++ (render below).toList := by
  simp only [toList_render]
  induction l with
  | nil => simp
  | cons name rest ih =>
    have hne : (rest ++ below).map (fun name : FileName => name.val.toList) ≠ [] := by
      intro hnil
      exact hbelow (append_eq_nil_iff.mp (map_eq_nil_iff.mp hnil)).2
    rw [cons_append, map_cons, intercalate_cons_of_ne_nil hne]
    simp only [reduceCtorEq, if_false]
    by_cases hrest : rest = []
    · subst hrest
      simp [intercalate]
    · rw [if_neg hrest] at ih
      rw [map_cons, intercalate_cons_of_ne_nil (mt map_eq_nil_iff.mp hrest)]
      simpa using ih

/-- Only the text of the root ends with a slash. -/
lemma endsWith_render {l : Place} (hl : l ≠ []) : endsWith (render l) "/" = false := by
  obtain ⟨above, last, rfl⟩ := (eq_nil_or_concat' l).resolve_left hl
  rw [Bool.eq_false_iff]
  intro hends
  have hsuf : ['/'] <:+ (render (above ++ [last])).toList :=
    isSuffixOf_iff_suffix.mp hends
  rw [toList_render_append above [last] (by simp)] at hsuf
  have hlastChars : (render [last]).toList = '/' :: last.val.toList := by
    simp [toList_render, intercalate]
  obtain ⟨start, final, hchars⟩ : ∃ start final, last.val.toList = start ++ [final] := by
    rcases eq_nil_or_concat last.val.toList with hnil | ⟨start, final, hchars⟩
    · exact absurd (String.toList_eq_nil_iff.mp hnil) last.property.1
    · exact ⟨start, final, by rw [hchars, concat_eq_append]⟩
  obtain ⟨before, hbefore⟩ := hsuf
  rw [hlastChars, hchars, ← cons_append, ← append_assoc] at hbefore
  have hfinal := (append_inj' hbefore rfl).2
  have hmem : '/' ∈ last.val.toList := by
    rw [hchars, ← hfinal]
    exact mem_append_right _ (mem_singleton_self _)
  exact last.property.2.2.2 hmem

/-- Joining the text of a place with a text that begins with no slash. -/
lemma toList_pathJoin_render {text : String} (htext : startsWith text "/" = false) :
    (pathJoin (render l) text).toList =
      (if l = [] then [] else (render l).toList) ++ '/' :: text.toList := by
  rw [pathJoin, htext, if_neg Bool.false_ne_true]
  by_cases hl : l = []
  · subst hl
    rw [if_pos (by decide +kernel)]
    simp [render]
  · rw [if_neg (by rw [render_ne_empty, endsWith_render hl]; decide), if_neg hl]
    simp

/-- `push` on the text of a place. -/
lemma pathJoin_render :
    pathJoin (render l) name.val = render (l ++ [name]) := by
  have hslash : startsWith name.val "/" = false := by
    rw [Bool.eq_false_iff]
    intro hstarts
    have hmem : '/' ∈ name.val.toList :=
      (List.isPrefixOf_iff_prefix.mp hstarts).subset (mem_singleton_self _)
    exact name.property.2.2.2 hmem
  rw [← String.toList_inj, toList_pathJoin_render l hslash, toList_render_append l [name] (by simp)]
  simp [toList_render, intercalate]

lemma pathComponents_render :
    pathComponents (render l) = "/" :: l.map (·.val) := by
  unfold pathComponents
  rw [splitAtChars_render, render_ne_empty]
  by_cases hl : l = []
  · subst hl
    decide
  · simp only [if_neg hl, Bool.false_eq_true, if_false, cons.injEq, true_and]
    rw [filter_eq_self]
    intro segment hseg
    obtain ⟨name, -, rfl⟩ := mem_map.mp hseg
    simp [name.property.1, name.property.2.1]

lemma pathComponents_render_slash {l : Place} (hl : l ≠ []) :
    pathComponents (render l ++ "/") = pathComponents (render l) := by
  have hslash : "/".toList = ['/'] := rfl
  have hsplit : splitAtChars (· == '/') (render l ++ "/") = "" :: (l.map (·.val) ++ [""]) := by
    have hrender := splitAtChars_render l
    rw [if_neg hl] at hrender
    rw [splitAtChars, String.toList_append, hslash, splitOnP_append_cons _ _ (by rfl),
      map_append, ← splitAtChars, hrender]
    rfl
  have hempty : (render l ++ "/").isEmpty = false := by
    rw [Bool.eq_false_iff, ne_eq, String.isEmpty_iff, ← String.toList_inj, String.toList_append]
    simp
  rw [pathComponents_render]
  unfold pathComponents
  rw [hsplit, hempty]
  simp only [Bool.false_eq_true, if_false, cons.injEq, true_and]
  rw [filter_append, filter_eq_self.mpr]
  · simp
  · intro segment hseg
    obtain ⟨name, -, rfl⟩ := mem_map.mp hseg
    simp [name.property.1, name.property.2.1]

lemma ofComponents_root : ofComponents ("/" :: l.map (·.val)) = render l := by
  cases l with
  | nil => rfl
  | cons name rest => rfl

/-- `Path::parent`. -/
def pathParent (path : String) : Option String :=
  (componentsParent (pathComponents path)).map ofComponents

lemma componentsParent_render :
    componentsParent (pathComponents (render (l ++ [name]))) = some ("/" :: l.map (·.val)) := by
  have hlast : ("/" :: (l ++ [name]).map (·.val)).getLast? = some name.val := by
    simp [getLast?_cons]
  have hslash : name.val ≠ "/" := by
    intro h
    exact name.property.2.2.2 (by rw [h]; exact mem_singleton_self _)
  rw [pathComponents_render, componentsParent, hlast]
  simp only [hslash, if_false, Option.some.injEq]
  rw [map_append, map_singleton, ← cons_append, dropLast_concat]

lemma pathParent_render :
    pathParent (render (l ++ [name])) = some (render l) := by
  rw [pathParent, componentsParent_render, Option.map_some, ofComponents_root]

end ExperienceCodex

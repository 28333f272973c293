import ExperienceCodex.FileSteps
import ExperienceCodex.PathGuard
import ExperienceCodex.PlainPaths

/-!
# Workspaces without links

The workspace is a directory in which there are no links, and so is the part of the disk that the
backup root lies in; neither lies in the other.  Then every path text that the executor handles is
the text of a place, and every operation on it is one on that place.
-/

namespace ExperienceCodex

open List Text FileTree

/-- The path text of a place, relative to the root of the workspace. -/
def relText (l : Place) : String := String.intercalate "/" (l.map (·.val))

/-- A name that the path guard reads back as it is. -/
def Spelled (name : FileName) : Prop :=
  '\\' ∉ name.val.toList ∧ trim name.val = name.val ∧ allowedPiece name.val = true

lemma toList_relText (l : Place) :
    (relText l).toList = ['/'].intercalate (l.map fun name => name.val.toList) := by
  have hslash : "/".toList = ['/'] := rfl
  rw [relText, String.toList_intercalate, hslash, map_map]
  rfl

lemma toList_render_eq (l : Place) : (render l).toList = '/' :: (relText l).toList := by
  rw [toList_render, toList_relText]

/-- A text that begins and ends with something other than white space is trimmed already. -/
lemma trim_eq_self {text : String} (hfst : ∀ c ∈ text.toList.head?, isWhitespace c = false)
    (hlast : ∀ c ∈ text.toList.getLast?, isWhitespace c = false) : trim text = text := by
  have hdrop : text.toList.dropWhile isWhitespace = text.toList := by
    cases htext : text.toList with
    | nil => rfl
    | cons c rest =>
      have hc := hfst c (by rw [htext]; rfl)
      rw [dropWhile_cons_of_neg (by simp [hc])]
  have hrdrop : text.toList.rdropWhile isWhitespace = text.toList := by
    rw [rdropWhile_eq_self_iff]
    intro hne
    have := hlast _ (getLast?_eq_getLast_of_ne_nil hne)
    simp [this]
  rw [trim, hdrop, hrdrop, String.ofList_toList]

lemma trim_first (text : String) : ∀ c ∈ (trim text).toList.head?, isWhitespace c = false := by
  rw [trim, String.toList_ofList]
  exact Lines.head_dropped _ _

lemma trim_last (text : String) : ∀ c ∈ (trim text).toList.getLast?, isWhitespace c = false := by
  rw [trim, String.toList_ofList]
  exact Lines.getLast_dropped _ _

lemma trim_trim (text : String) : trim (trim text) = trim text :=
  trim_eq_self (trim_first text) (trim_last text)

/-- The names of an accepted request are spelled as the guard reads them. -/
lemma spelled_guardNames {raw : String} (h : allowedText raw = true) :
    ∀ name ∈ guardNames raw, Spelled name := by
  intro name hname
  obtain ⟨piece, hpiece, hsome⟩ := mem_filterMap.mp hname
  have hval := fileName?_eq_some_iff.mp hsome
  rw [allowedText, Bool.and_eq_true, all_eq_true] at h
  rw [← hval] at hpiece
  refine ⟨(not_slash_of_mem_guardPieces hpiece).2, ?_, h.2 _ hpiece⟩
  obtain ⟨text, -, htext⟩ := mem_map.mp hpiece
  rw [← htext, trim_trim]

lemma splitOnP_intercalate (sep : Char → Bool) (hslash : sep '/' = true)
    (pieces : List (List Char)) (hpieces : ∀ piece ∈ pieces, ∀ c ∈ piece, sep c = false)
    (hne : pieces ≠ []) : (['/'].intercalate pieces).splitOnP sep = pieces := by
  induction pieces with
  | nil => exact absurd rfl hne
  | cons piece rest ih =>
    have hpiece := hpieces piece (mem_cons_self ..)
    by_cases hrest : rest = []
    · subst hrest
      simpa [intercalate] using splitOnP_eq_singleton hpiece
    · rw [intercalate_cons_of_ne_nil hrest, append_assoc, singleton_append,
        splitOnP_append_cons_of_forall_mem hpiece _ hslash,
        ih (forall_mem_of_forall_mem_cons hpieces) hrest]

/-- A text without a colon that does not begin with a slash or backslash passes the checks on the
text. -/
lemma relativeTextError_eq_none {text : String} (hne : text ≠ "") (hcolon : ':' ∉ text.toList)
    (hfst : ∀ c ∈ text.toList.head?, c ≠ '/' ∧ c ≠ '\\') : relativeTextError text = none := by
  obtain ⟨first, rest, htext⟩ := exists_cons_of_ne_nil (mt String.toList_eq_nil_iff.mp hne)
  have hc := hfst first (by rw [htext]; rfl)
  have hempty : text.isEmpty = false := by
    rw [Bool.eq_false_iff]
    exact mt String.isEmpty_iff.mp hne
  have hstarts : ∀ pattern : String, ∀ c more, pattern.toList = c :: more → c ≠ first →
      startsWith text pattern = false := by
    intro pattern c more hpat hcfirst
    simp [startsWith, hpat, htext, isPrefixOf, hcfirst]
  have hunc := hstarts "\\\\" '\\' ['\\'] rfl hc.2.symm
  have hslashes := hstarts "//" '/' ['/'] rfl hc.1.symm
  have hslash := hstarts "/" '/' [] rfl hc.1.symm
  have hback := hstarts "\\" '\\' [] rfl hc.2.symm
  have hsnd : ∀ more, rest ≠ ':' :: more := by
    rintro more rfl
    exact hcolon (by rw [htext]; simp)
  simp only [relativeTextError, hempty, hunc, hslashes, hslash, hback, htext, Bool.or_self,
    Bool.false_eq_true, if_false]
  cases rest with
  | nil => rfl
  | cons second more =>
    have hne : second ≠ ':' := fun h => hsnd more (by rw [h])
    split
    · next error herr =>
      split at herr
      · next heq =>
        simp only [cons.injEq] at heq
        exact absurd heq.2.1 hne
      · cases herr
    · rfl

section
variable {l : Place}

lemma mem_relText {c : Char} (hc : c ∈ (relText l).toList) :
    c = '/' ∨ ∃ name ∈ l, c ∈ name.val.toList := by
  rw [toList_relText] at hc
  induction l with
  | nil => cases hc
  | cons name rest ih =>
    by_cases hrest : rest = []
    · subst hrest
      have hc' : c ∈ name.val.toList := by simpa [intercalate] using hc
      exact .inr ⟨name, mem_cons_self .., hc'⟩
    · rw [map_cons, intercalate_cons_of_ne_nil (mt map_eq_nil_iff.mp hrest)] at hc
      rcases mem_append.mp hc with hc | hc
      · rcases mem_append.mp hc with hc | hc
        · exact .inr ⟨name, mem_cons_self .., hc⟩
        · exact .inl (mem_singleton.mp hc)
      · rcases ih hc with hslash | ⟨other, hother, hmem⟩
        · exact .inl hslash
        · exact .inr ⟨other, mem_cons_of_mem _ hother, hmem⟩

lemma toList_ne_nil (name : FileName) : name.val.toList ≠ [] :=
  mt String.toList_eq_nil_iff.mp name.property.1

lemma head?_relText (name : FileName) (rest : Place) :
    (relText (name :: rest)).toList.head? = name.val.toList.head? := by
  rw [toList_relText, map_cons]
  by_cases hrest : rest = []
  · subst hrest
    simp [intercalate]
  · rw [intercalate_cons_of_ne_nil (mt map_eq_nil_iff.mp hrest), append_assoc,
      head?_append_of_ne_nil _ (toList_ne_nil name)]

lemma getLast?_relText (above : Place) (name : FileName) :
    (relText (above ++ [name])).toList.getLast? = name.val.toList.getLast? := by
  have hname := toList_ne_nil name
  have hrender := toList_render_append above [name] (by simp)
  have hsingle : (render [name]).toList = '/' :: name.val.toList := by
    simp [toList_render, intercalate]
  rw [toList_render_eq, hsingle] at hrender
  have hne : (relText (above ++ [name])).toList ≠ [] := by
    intro hnil
    rw [hnil] at hrender
    have hlen := congrArg length hrender
    have hpos := length_pos_iff.mpr hname
    simp at hlen
    omega
  have hlast := congrArg getLast? hrender
  rwa [getLast?_cons_of_ne_nil hne, getLast?_append_of_ne_nil _ (cons_ne_nil _ _),
    getLast?_cons_of_ne_nil hname] at hlast

variable (hspelled : ∀ name ∈ l, Spelled name)
include hspelled

lemma backslash_notMem_relText : '\\' ∉ (relText l).toList := by
  intro hmem
  rcases mem_relText hmem with hslash | ⟨name, hname, hmem⟩
  · exact absurd hslash (by decide)
  · exact (hspelled name hname).1 hmem

lemma withSlashes_relText : withSlashes (relText l) = relText l := by
  have hmap : (relText l).toList.map (fun c => if c = '\\' then '/' else c) =
      (relText l).toList := by
    refine (map_congr_left ?_).trans (map_id _)
    intro c hc
    have hne : c ≠ '\\' := by
      rintro rfl
      exact backslash_notMem_relText hspelled hc
    rw [if_neg hne, id]
  rw [withSlashes, hmap, String.ofList_toList]

lemma trim_relText : trim (relText l) = relText l := by
  refine trim_eq_self ?_ ?_
  · cases l with
    | nil => exact fun c hc => by cases hc
    | cons name rest =>
      have hname := hspelled name (mem_cons_self ..)
      have hfst := trim_first name.val
      rwa [hname.2.1, ← head?_relText name rest] at hfst
  · rcases eq_nil_or_concat l with rfl | ⟨above, name, rfl⟩
    · exact fun c hc => by cases hc
    · rw [concat_eq_append] at hspelled ⊢
      have hname := hspelled name (by simp)
      have hlast := trim_last name.val
      rwa [hname.2.1, ← getLast?_relText above name] at hlast

lemma guardPieces_relText (hl : l ≠ []) : guardPieces (relText l) = l.map (·.val) := by
  have hsplit : splitAtChars (fun c => c == '/' || c == '\\') (relText l) = l.map (·.val) := by
    have hpieces := splitOnP_intercalate (fun c => c == '/' || c == '\\') (by decide)
      (l.map fun name => name.val.toList) ?_ (mt map_eq_nil_iff.mp hl)
    · rw [splitAtChars, toList_relText, hpieces, map_map]
      simp [Function.comp_def]
    · intro piece hpiece c hc
      obtain ⟨name, hname, rfl⟩ := mem_map.mp hpiece
      have hslash : c ≠ '/' := fun h => name.property.2.2.2 (h ▸ hc)
      have hback : c ≠ '\\' := fun h => (hspelled name hname).1 (h ▸ hc)
      simp [hslash, hback]
  rw [guardPieces, trim_relText hspelled, hsplit, map_map]
  refine map_congr_left ?_
  intro name hname
  exact (hspelled name hname).2.1

lemma guardNames_relText (hl : l ≠ []) : guardNames (relText l) = l := by
  rw [guardNames, guardPieces_relText hspelled hl, filterMap_map]
  have hsome : fileName? ∘ (fun name : FileName => name.val) = some := funext fileName?_val
  rw [hsome, filterMap_some]

/-- The guard accepts the relative text of a place. -/
lemma allowedText_relText (hl : l ≠ []) : allowedText (relText l) = true := by
  have hall : (guardPieces (relText l)).all allowedPiece = true := by
    rw [guardPieces_relText hspelled hl, all_map, all_eq_true]
    exact fun name hname => (hspelled name hname).2.2
  have hcolon : ':' ∉ (relText l).toList := by
    intro hmem
    rcases mem_relText hmem with hslash | ⟨name, hname, hmem⟩
    · exact absurd hslash (by decide)
    · have hallow := (hspelled name hname).2.2
      have hproperty := name.property
      have hempty : name.val.isEmpty = false := by
        rw [Bool.eq_false_iff]
        exact mt String.isEmpty_iff.mp hproperty.1
      simp [allowedPiece, hempty, hproperty.2.1, hmem] at hallow
  obtain ⟨name, rest, rfl⟩ := exists_cons_of_ne_nil hl
  have hne : relText (name :: rest) ≠ "" := by
    intro hnil
    have hhead := head?_relText name rest
    rw [hnil] at hhead
    exact toList_ne_nil name (head?_eq_none_iff.mp hhead.symm)
  have herr : relativeTextError (relText (name :: rest)) = none := by
    refine relativeTextError_eq_none hne hcolon ?_
    rw [head?_relText]
    intro c hc
    have hmem := mem_of_mem_head? hc
    refine ⟨fun h => name.property.2.2.2 (h ▸ hmem), fun h => ?_⟩
    exact (hspelled name (mem_cons_self ..)).1 (h ▸ hmem)
  rw [allowedText, trim_relText hspelled, hall, herr]
  rfl

end

lemma render_eq_append (l : Place) : render l = "/" ++ relText l := rfl

lemma relText_injective : Function.Injective relText := by
  intro l l' h
  refine render_injective ?_
  rw [render_eq_append, render_eq_append, h]

lemma relativeTo_render (root l : Place) :
    relativeTo (render root) (render (root ++ l)) = some (relText l) := by
  have hcomps : pathComponents (render (root ++ l)) =
      pathComponents (render root) ++ l.map (·.val) := by
    simp [pathComponents_render]
  rw [relativeTo, hcomps, if_pos (prefix_append _ _), drop_left]
  rfl

lemma pathJoin_relText (b : Place) {l : Place} (hl : l ≠ []) :
    pathJoin (render b) (relText l) = render (b ++ l) := by
  obtain ⟨name, rest, rfl⟩ := exists_cons_of_ne_nil hl
  have hslash : startsWith (relText (name :: rest)) "/" = false := by
    rw [Bool.eq_false_iff]
    intro hstarts
    obtain ⟨more, hmore⟩ := isPrefixOf_iff_prefix.mp hstarts
    have hhead := head?_relText name rest
    rw [← hmore] at hhead
    exact name.property.2.2.2 (mem_of_mem_head? hhead.symm)
  rw [← String.toList_inj, toList_pathJoin_render b hslash, toList_render_append b _ hl,
    toList_render_eq (name :: rest)]

namespace Host

variable {host : Host} {l : Place}

lemma locate_plain (h : host.tree.NoLinks l) :
    host.locate (render l) = host.tree.plainOutcome l := by
  rw [locate, parsePath_render]
  exact Tree.locate_wayTo host.cwd h

lemma pathExists_render (h : host.tree.NoLinks l) :
    host.pathExists (render l) = (host.tree.node l).isSome := by
  rw [pathExists, parsePath_render]
  exact Tree.pathExists_wayTo host.cwd h

lemma pathIsDir_render (h : host.tree.NoLinks l) :
    host.pathIsDir (render l) = host.tree.isDir l := by
  rw [pathIsDir, parsePath_render]
  exact Tree.pathIsDir_wayTo host.cwd h

lemma onPath_render {β : Type} (operation : Route FileName → Except IoError β) :
    onPath (render l) operation = operation (wayTo l) := by
  rw [onPath, parsePath_render]
  rfl

lemma createDirAll_render :
    host.createDirAll (render l) = host.tree.createDirAll host.cwd (wayTo l) := by
  rw [createDirAll, parsePath_render]
  rfl

lemma canonicalize_render (h : host.tree.NoLinks l) (hnode : host.tree.node l ≠ none) :
    host.canonicalize (render l) = .ok l := by
  rw [canonicalize, locate_plain h, Tree.plainOutcome, if_pos (Option.isSome_iff_ne_none.mpr hnode)]

end Host

/-- A workspace and, if there is one, a backup root, neither of which lies in the other. -/
structure Layout where
  root : Place
  backup : Option Place
  apart : ∀ b ∈ backup, ¬ root <+: b ∧ ¬ b <+: root

namespace Layout

variable (layout : Layout)

/-- A context for steps in this workspace with this backup root. -/
structure Fits (context : FileContext) : Prop where
  workspace : context.canonicalWorkspace = render layout.root
  scratch : context.scratch = none
  backup : context.backup = layout.backup.map render

/-- The workspace is a directory, and nothing in it or at the backup root is a link. -/
structure Plain (t : Tree FileName ByteArray) : Prop where
  rootDir : t.node layout.root = some .dir
  work : ∀ l, t.isLink (layout.root ++ l) = false
  backup : ∀ b ∈ layout.backup, t.NoLinks b ∧ ∀ l, t.isLink (b ++ l) = false

variable {layout} {t : Tree FileName ByteArray}

lemma Plain.noLinks (h : layout.Plain t) (l : Place) : t.NoLinks (layout.root ++ l) := by
  intro k hk
  rcases prefix_or_prefix_of_prefix hk (prefix_append layout.root l) with
    habove | ⟨below, rfl⟩
  · rw [Tree.isLink, Tree.node_of_above_dir h.rootDir habove]
    rfl
  · exact h.work below

lemma Plain.noLinks_backup (h : layout.Plain t) {b : Place} (hb : b ∈ layout.backup) (l : Place) :
    t.NoLinks (b ++ l) := by
  intro k hk
  rcases prefix_or_prefix_of_prefix hk (prefix_append b l) with habove | ⟨below, rfl⟩
  · exact (h.backup b hb).1 k habove
  · exact (h.backup b hb).2 below

/-- Where no entry is a link there are no links. -/
lemma Plain.of_entries (hroot : t.node layout.root = some .dir)
    (h : t.entries.all (fun e => !e.2.isLink) = true) : layout.Plain t where
  rootDir := hroot
  work _ := Tree.isLink_of_entries h _
  backup _ _ := ⟨fun _ _ => Tree.isLink_of_entries h _, fun _ => Tree.isLink_of_entries h _⟩

/-- What the guard accepts in such a workspace. -/
lemma Plain.safeJoin_iff (cwd : Place) (h : layout.Plain t) (raw path : String) :
    safeJoin (Host.view { tree := t, cwd }) (render layout.root) raw = .ok path ↔
      allowedText raw = true ∧ path = render (layout.root ++ guardNames raw) := by
  set host : Host := { tree := t, cwd } with hhost
  have hlinks : ∀ l, host.tree.NoLinks (layout.root ++ l) := h.noLinks
  have hfound : host.canonicalize (render layout.root) = .ok layout.root := by
    refine Host.canonicalize_render ?_ (by rw [h.rootDir]; simp)
    simpa using hlinks []
  rw [safeJoin_eq_ok_iff]
  constructor
  · rintro ⟨hallow, root, hroot, hpath, -⟩
    rw [hfound] at hroot
    cases hroot
    exact ⟨hallow, hpath⟩
  · rintro ⟨hallow, rfl⟩
    refine ⟨hallow, layout.root, hfound, rfl, ?_⟩
    refine ancestorCheck_eq_ok host _ _ _ _ ?_ ?_
    · refine ⟨layout.root, ?_⟩
      have hlocate := Host.locate_plain (by simpa using hlinks [])
      rw [hlocate, Tree.plainOutcome, if_pos (by rw [h.rootDir]; rfl)]
    · intro k d _ hlocate
      rw [Host.locate_plain (hlinks k), Tree.plainOutcome] at hlocate
      split_ifs at hlocate
      cases hlocate
      exact looksInside_append layout.root k

end Layout

/-- The workspace `/ws` and the backup root `/backup`. -/
def smallLayout : Layout where
  root := [wsName]
  backup := some [backupName]
  apart := by
    rintro b hb
    cases hb
    decide

/-- The small workspace with one file. -/
def smallTree : Tree FileName ByteArray :=
  (Tree.empty.makeDir smallLayout.root).putFile (smallLayout.root ++ [⟨"f", by decide⟩])
    "old".toUTF8

lemma smallTree_plain : smallLayout.Plain smallTree :=
  .of_entries (by rfl) (by decide +kernel)

lemma smallTree_file {l : Place} {v : ByteArray}
    (h : smallTree.node (smallLayout.root ++ l) = some (.file v)) :
    l = [⟨"f", by decide⟩] := by
  have hmem := Tree.mem_entries h (by simp [smallLayout])
  have hkeys : smallTree.entries.map Prod.fst =
      [smallLayout.root ++ [⟨"f", by decide⟩], smallLayout.root] := by decide +kernel
  have hkey : smallLayout.root ++ l ∈ smallTree.entries.map Prod.fst :=
    mem_map.mpr ⟨_, hmem, rfl⟩
  rw [hkeys, mem_cons, mem_singleton] at hkey
  rcases hkey with hkey | hkey
  · exact append_cancel_left hkey
  · rw [hkey, smallTree_plain.rootDir] at h
    cases h

end ExperienceCodex

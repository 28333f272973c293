import ExperienceCodex.Lines
import ExperienceCodex.ProbeAgreement

/-!
# Paths that the guard accepts

An accepted path is the text of the root followed by names, and the names, joined by slashes, are
accepted again and lead to the same path; the backups are restored by this.  The probes join the
requested text as it is.  They look at the file that the executor writes exactly if the text is
written as the guard reads it.
-/

namespace ExperienceCodex

open List Text FileTree Tree

variable {text relative : String}

/-- What the guard lets through as a component. -/
structure PlainComponent (component : String) : Prop where
  notEmpty : component ≠ ""
  notDot : component ≠ "."
  notDots : component ≠ ".."
  noSlash : '/' ∉ component.toList
  noBackslash : '\\' ∉ component.toList
  noColon : ':' ∉ component.toList
  notReserved : isReservedComponent component = false

lemma Spelled.plainComponent {name : FileName} (h : Spelled name) : PlainComponent name.val := by
  obtain ⟨hempty, hdot, hdots, hslash⟩ := name.property
  have hallow := h.2.2
  have hne : name.val.isEmpty = false := by
    rw [Bool.eq_false_iff]
    exact mt String.isEmpty_iff.mp hempty
  simp only [allowedPiece, hne, hdot, hdots, beq_iff_eq, Bool.false_or,
    Bool.or_eq_true, false_or, Bool.not_eq_true', Bool.or_eq_false_iff, beq_eq_false_iff_ne,
    ne_eq, not_false_eq_true, and_true] at hallow
  refine ⟨hempty, hdot, hdots, hslash, h.1, ?_, hallow.2⟩
  simpa using hallow.1

/-- An accepted path is the root followed by components that the guard lets through; the text of
these components, as a backup stores it, is accepted again and gives the same path. -/
theorem safeJoin_stable {host : Host} {workspace relative path : String} {root : Place}
    (hroot : host.canonicalize workspace = .ok root)
    (h : safeJoin host.view workspace relative = .ok path) :
    ∃ names : Place, path = render (root ++ names) ∧
      (∀ name ∈ names, PlainComponent name.val) ∧
      ∃ stored, (relativeTo (render root) path).map withSlashes = some stored ∧
        stored = String.intercalate "/" (names.map (·.val)) ∧
        (stored ≠ "" → safeJoin host.view workspace stored = .ok path) := by
  obtain ⟨hallowed, other, hother, hpath, hcheck⟩ := (safeJoin_eq_ok_iff ..).mp h
  cases hroot.symm.trans hother
  have hspelled := spelled_guardNames hallowed
  have hstored : (relativeTo (render root) path).map withSlashes =
      some (relText (guardNames relative)) := by
    rw [hpath, relativeTo_render, Option.map_some, withSlashes_relText hspelled]
  refine ⟨guardNames relative, hpath, fun name hname => (hspelled name hname).plainComponent,
    _, hstored, rfl, fun hne => ?_⟩
  have hnames : guardNames relative ≠ [] := by
    intro hnil
    rw [hnil] at hne
    exact hne rfl
  have hagain := guardNames_relText hspelled hnames
  rw [safeJoin_eq_ok_iff, hagain]
  exact ⟨allowedText_relText hspelled hnames, root, hroot, hpath, hcheck⟩

/-- Mixed separators, spaces and dots. -/
theorem safeJoin_stable_spaces :
    let host : Host := { tree := smallTree, cwd := [] }
    safeJoin host.view "/ws" " a\\ b /./c" = .ok "/ws/a/b/c" ∧
      ∃ names : Place, "/ws/a/b/c" = render (smallLayout.root ++ names) ∧
        (∀ name ∈ names, PlainComponent name.val) ∧
        ∃ stored, (relativeTo (render smallLayout.root) "/ws/a/b/c").map withSlashes =
            some stored ∧ stored = String.intercalate "/" (names.map (·.val)) ∧
          (stored ≠ "" → safeJoin host.view "/ws" stored = .ok "/ws/a/b/c") := by
  intro host
  have hroot : host.canonicalize "/ws" = .ok smallLayout.root := by decide +kernel
  have haccepted : safeJoin host.view "/ws" " a\\ b /./c" = .ok "/ws/a/b/c" := by decide +kernel
  exact ⟨haccepted, safeJoin_stable hroot haccepted⟩

section
variable {separator other : Char → Bool}

lemma splitOnP_append_left {front : List Char} (h : ∀ c ∈ front, separator c = false)
    (text : List Char) :
    (front ++ text).splitOnP separator =
      (text.splitOnP separator).modifyHead (front ++ ·) := by
  obtain ⟨first, others, hsplit⟩ := exists_cons_of_ne_nil (splitOnP_ne_nil separator text)
  have hfront : front.splitOnP separator = [] ++ [front] := splitOnP_eq_singleton h
  rw [Lines.splitOnP_append hfront hsplit, hsplit]
  rfl

lemma splitOnP_append_right {back : List Char} (h : ∀ c ∈ back, separator c = false)
    (text : List Char) :
    ∃ before last, text.splitOnP separator = before ++ [last] ∧
      (text ++ back).splitOnP separator = before ++ [last ++ back] := by
  have hsplit := (dropLast_append_getLast (splitOnP_ne_nil separator text)).symm
  exact ⟨_, _, hsplit, Lines.splitOnP_append hsplit (splitOnP_eq_singleton h)⟩

lemma splitOnP_or (text : List Char) :
    text.splitOnP (fun c => separator c || other c) =
      (text.splitOnP separator).flatMap (List.splitOnP other) := by
  induction text with
  | nil => rfl
  | cons c rest ih =>
    obtain ⟨first, others, hsplit⟩ :=
      exists_cons_of_ne_nil (splitOnP_ne_nil separator rest)
    rw [hsplit, flatMap_cons] at ih
    rw [splitOnP_cons_eq_if_modifyHead, splitOnP_cons_eq_if_modifyHead, ih, hsplit]
    cases hsep : separator c with
    | true => simp [splitOnP_nil]
    | false =>
      cases hother : other c with
      | true => simp [splitOnP_cons_eq_if_modifyHead, hother]
      | false =>
        simp only [Bool.or_self, Bool.false_eq_true, if_false, modifyHead_cons,
          flatMap_cons, splitOnP_cons_eq_if_modifyHead, hother]
        obtain ⟨piece, pieces, hpieces⟩ :=
          exists_cons_of_ne_nil (splitOnP_ne_nil other first)
        rw [hpieces]
        rfl

lemma splitOnP_congr {text : List Char} (h : ∀ c ∈ text, separator c = other c) :
    text.splitOnP separator = text.splitOnP other := by
  induction text with
  | nil => rfl
  | cons c rest ih =>
    rw [splitOnP_cons_eq_if_modifyHead, splitOnP_cons_eq_if_modifyHead,
      h c mem_cons_self, ih (forall_mem_of_forall_mem_cons h)]

lemma exists_mem_splitOnP {text : List Char} {c : Char} (hmem : c ∈ text)
    (hc : separator c = false) : ∃ piece ∈ text.splitOnP separator, c ∈ piece := by
  induction text with
  | nil => cases hmem
  | cons first rest ih =>
    obtain ⟨head, tail, hsplit⟩ :=
      exists_cons_of_ne_nil (splitOnP_ne_nil separator rest)
    rw [hsplit] at ih
    rw [splitOnP_cons_eq_if_modifyHead, hsplit]
    by_cases hfst : separator first = true
    · have hrest : c ∈ rest := by
        rcases mem_cons.mp hmem with rfl | hrest
        · rw [hfst] at hc
          cases hc
        · exact hrest
      obtain ⟨piece, hpiece, hin⟩ := ih hrest
      rw [if_pos hfst]
      exact ⟨piece, mem_cons_of_mem _ hpiece, hin⟩
    · rw [if_neg hfst, modifyHead_cons]
      rcases mem_cons.mp hmem with rfl | hrest
      · exact ⟨c :: head, mem_cons_self, mem_cons_self⟩
      · obtain ⟨piece, hpiece, hin⟩ := ih hrest
        rcases mem_cons.mp hpiece with rfl | hpiece
        · exact ⟨first :: piece, mem_cons_self, mem_cons_of_mem _ hin⟩
        · exact ⟨piece, mem_cons_of_mem _ hpiece, hin⟩

variable {space : Char → Bool} (hspace : ∀ c, space c = true → separator c = false)
  {text piece : List Char}
include hspace

lemma mem_splitOnP_dropWhile (hmem : piece ∈ text.splitOnP separator)
    (hfst : ∀ c ∈ piece.head?, space c = false) :
    piece ∈ (text.dropWhile space).splitOnP separator := by
  have hfront : ∀ c ∈ text.takeWhile space, space c = true := fun c hc =>
    mem_takeWhile_imp hc
  obtain ⟨first, others, hsplit⟩ :=
    exists_cons_of_ne_nil (splitOnP_ne_nil separator (text.dropWhile space))
  rw [← takeWhile_append_dropWhile (p := space) (l := text),
    splitOnP_append_left fun c hc => hspace c (hfront c hc), hsplit, modifyHead_cons,
    mem_cons] at hmem
  rw [hsplit, mem_cons]
  rcases hmem with rfl | hmem
  · -- the first piece begins with no white space, so that nothing was dropped
    cases hdropped : text.takeWhile space with
    | nil => exact .inl rfl
    | cons c rest =>
      rw [hdropped] at hfst hfront
      have hspace := hfront c mem_cons_self
      rw [hfst c rfl] at hspace
      cases hspace
  · exact .inr hmem

lemma mem_splitOnP_rdropWhile (hmem : piece ∈ text.splitOnP separator)
    (hlast : ∀ c ∈ piece.getLast?, space c = false) :
    piece ∈ (text.rdropWhile space).splitOnP separator := by
  have hback : ∀ c ∈ text.rtakeWhile space, space c = true := fun c hc =>
    mem_rtakeWhile_imp hc
  have hwhole : text.rdropWhile space ++ text.rtakeWhile space = text :=
    rdropWhile_append_rtakeWhile
  obtain ⟨before, last, hsplit, happend⟩ := splitOnP_append_right
    (fun c hc => hspace c (hback c hc)) (text.rdropWhile space)
  rw [← hwhole, happend, mem_append, mem_singleton] at hmem
  rw [hsplit, mem_append, mem_singleton]
  rcases hmem with hmem | rfl
  · exact .inl hmem
  · rcases eq_nil_or_concat (text.rtakeWhile space) with hnil | ⟨rest, c, hconcat⟩
    · rw [hnil, append_nil]
      exact .inr rfl
    · rw [concat_eq_append] at hconcat
      rw [hconcat] at hlast hback
      have hspace := hback c (by simp)
      rw [hlast c (by simp)] at hspace
      cases hspace

end

/-- The pieces of a text between its slashes. -/
def slashPieces (text : String) : List String := splitAtChars (· == '/') text

/-- The names among the pieces. -/
def slashNames (text : String) : Place := (slashPieces text).filterMap fileName?

lemma slashPieces_ne_nil (text : String) : slashPieces text ≠ [] :=
  mt map_eq_nil_iff.mp (splitOnP_ne_nil _ _)

lemma ofList_mem_slashPieces_iff {piece : List Char} :
    String.ofList piece ∈ slashPieces text ↔ piece ∈ text.toList.splitOnP (· == '/') := by
  rw [slashPieces, splitAtChars, mem_map]
  constructor
  · rintro ⟨other, hother, heq⟩
    rwa [← String.ofList_inj.mp heq]
  · exact fun h => ⟨piece, h, rfl⟩

/-- The guard reads two dots wherever the operating system does. -/
lemma dots_notMem_slashPieces (h : allowedText relative = true) :
    ".." ∉ slashPieces relative := by
  intro hmem
  have hdots : ['.', '.'] ∈ relative.toList.splitOnP (· == '/') :=
    ofList_mem_slashPieces_iff.mp hmem
  -- white space around the text is in no piece that is two dots
  have htrimmed : ['.', '.'] ∈ (trim relative).toList.splitOnP (· == '/') := by
    have hspace : ∀ c, isWhitespace c = true → (c == '/') = false := by
      intro c hc
      rw [beq_eq_false_iff_ne]
      rintro rfl
      exact absurd hc (by decide)
    rw [trim, String.toList_ofList]
    refine mem_splitOnP_rdropWhile hspace (mem_splitOnP_dropWhile hspace hdots ?_) ?_
    · intro c hc
      cases hc
      decide
    · intro c hc
      cases hc
      decide
  have hboth : ['.', '.'] ∈ (trim relative).toList.splitOnP fun c => c == '/' || c == '\\' := by
    rw [splitOnP_or, mem_flatMap]
    exact ⟨_, htrimmed, by decide⟩
  have hpiece : ".." ∈ guardPieces relative := by
    rw [guardPieces, mem_map]
    exact ⟨"..", mem_map.mpr ⟨_, hboth, rfl⟩, by decide +kernel⟩
  rw [allowedText, Bool.and_eq_true, all_eq_true] at h
  exact absurd (h.2 _ hpiece) (by decide +kernel)

lemma slashPieces_pathJoin (root : Place) (htext : startsWith text "/" = false) :
    slashPieces (pathJoin (render root) text) = "" :: root.map (·.val) ++ slashPieces text := by
  have htail : ('/' :: text.toList).splitOn '/' = [] :: text.toList.splitOn '/' := by
    rw [splitOn_cons_eq_if_modifyHead, if_pos (by decide)]
  rw [slashPieces, splitAtChars, toList_pathJoin_render root htext]
  by_cases hroot : root = []
  · subst hroot
    exact congrArg (List.map String.ofList) htail
  · have hrender : splitAtChars (· == '/') (render root) = "" :: root.map (·.val) := by
      rw [splitAtChars_render, if_neg hroot]
    have hwhole : ((render root).toList ++ '/' :: text.toList).splitOn '/' =
        (render root).toList.splitOn '/' ++ text.toList.splitOn '/' := splitOn_append_cons_self ..
    rw [if_neg hroot, ← hrender]
    exact (congrArg (List.map String.ofList) hwhole).trans (map_append ..)

/-- The last piece is empty or a dot, as in a path of a directory. -/
def EndsOpen (text : String) : Prop :=
  (slashPieces text).getLast? = some "" ∨ (slashPieces text).getLast? = some "."

instance (text : String) : Decidable (EndsOpen text) := inferInstanceAs (Decidable (_ ∨ _))

/-- The steps of a way down, which is one to a directory if the text ends so. -/
def stepsDown (l : Place) (text : String) : List (PathStep FileName) :=
  if l ≠ [] ∧ EndsOpen text then l.map .down ++ [.here] else l.map .down

/-- A request that is joined as it is leads down its names from the root. -/
lemma parsePath_pathJoin (root : Place) (htext : startsWith text "/" = false)
    (hdots : ".." ∉ slashPieces text) :
    parsePath (pathJoin (render root) text) =
      some { absolute := true, steps := stepsDown (root ++ slashNames text) text } := by
  have hpieces := slashPieces_pathJoin root htext
  have hsteps : (slashPieces (pathJoin (render root) text)).filterMap pieceStep =
      (root ++ slashNames text).map .down := by
    have hroot : (root.map (·.val)).filterMap pieceStep = root.map .down := by
      rw [filterMap_map]
      have hsome : pieceStep ∘ (fun name : FileName => name.val) = fun name => some (.down name) :=
        funext pieceStep_val
      rw [hsome, filterMap_eq_map']
    have hnames : (slashPieces text).filterMap pieceStep = (slashNames text).map .down := by
      rw [slashNames, map_filterMap]
      apply filterMap_congr
      intro piece hpiece
      have hne : piece ≠ ".." := fun h => hdots (h ▸ hpiece)
      rw [pieceStep, if_neg hne]
    rw [hpieces, cons_append, filterMap_cons, filterMap_append, hroot, hnames, map_append]
    rfl
  have hlast : (slashPieces (pathJoin (render root) text)).getLast? =
      (slashPieces text).getLast? := by
    rw [hpieces, getLast?_append_of_ne_nil _ (slashPieces_ne_nil text)]
  have hnonempty : (pathJoin (render root) text).isEmpty = false := by
    rw [Bool.eq_false_iff, ne_eq, String.isEmpty_iff, ← String.toList_inj,
      toList_pathJoin_render root htext]
    simp
  have habsolute : startsWith (pathJoin (render root) text) "/" = true := by
    rw [startsWith, toList_pathJoin_render root htext]
    by_cases hroot : root = []
    · rw [if_pos hroot]
      rfl
    · rw [if_neg hroot, toList_render]
      rfl
  have hopen : (!((root ++ slashNames text).map PathStep.down).isEmpty &&
      ((slashPieces text).getLast? == some "" || (slashPieces text).getLast? == some ".")) =
        decide (root ++ slashNames text ≠ [] ∧ EndsOpen text) := by
    rw [Bool.eq_iff_iff, decide_eq_true_iff]
    simp only [Bool.and_eq_true, Bool.not_eq_true', isEmpty_eq_false_iff, ne_eq,
      map_eq_nil_iff, Bool.or_eq_true, beq_iff_eq, EndsOpen]
  unfold slashPieces at hsteps hlast hopen
  simp only [parsePath, hnonempty, Bool.false_eq_true, if_false, hsteps, hlast, habsolute, hopen,
    decide_eq_true_eq, stepsDown]

/-- No backslashes, no white space around a piece, and a name at the end. -/
structure WrittenPlainly (text : String) : Prop where
  noBackslash : '\\' ∉ text.toList
  trimmed : ∀ piece ∈ slashPieces text, trim piece = piece
  endsInName : ¬ EndsOpen text

lemma not_startsWith_slash_of_noError (h : relativeTextError text = none) :
    startsWith text "/" = false ∧ text.toList ≠ [] := by
  unfold relativeTextError at h
  split_ifs at h with hempty hunc hslash
  · -- Whatever the drive is, an absolute path is refused.
    repeat' split at h
    all_goals contradiction
  · rw [Bool.or_eq_true, not_or] at hslash
    refine ⟨Bool.eq_false_iff.mpr hslash.1, fun hnil => hempty ?_⟩
    exact String.isEmpty_iff.mpr (String.toList_eq_nil_iff.mp hnil)

lemma not_startsWith_slash (h : allowedText relative = true) :
    startsWith relative "/" = false ∧ relative.toList ≠ [] := by
  rw [allowedText, Bool.and_eq_true, Option.isNone_iff_eq_none] at h
  obtain ⟨htrimmed, hne⟩ := not_startsWith_slash_of_noError h.1
  rw [trim, String.toList_ofList] at hne
  refine ⟨?_, fun hnil => hne (by rw [hnil]; rfl)⟩
  rw [Bool.eq_false_iff] at htrimmed ⊢
  intro hstarts
  obtain ⟨rest, hrest⟩ := isPrefixOf_iff_prefix.mp hstarts
  apply htrimmed
  rw [startsWith, trim, String.toList_ofList, isPrefixOf_iff_prefix, ← hrest]
  have hdrop : ("/".toList ++ rest).dropWhile isWhitespace = '/' :: rest := by
    rw [show "/".toList ++ rest = '/' :: rest from rfl, dropWhile_cons_of_neg (by decide)]
  rw [← hrest, hdrop] at hne
  rw [hdrop]
  obtain ⟨first, more, hcons⟩ := exists_cons_of_ne_nil hne
  have hfst : first = '/' := by
    have hpre := rdropWhile_prefix isWhitespace (l := '/' :: rest)
    rw [hcons] at hpre
    exact (cons_prefix_cons.mp hpre).1
  rw [hcons, hfst, String.toList_ofList]
  exact prefix_append ['/'] more

/-- The guard finds the names that the operating system finds. -/
lemma WrittenPlainly.guardNames_eq (h : WrittenPlainly relative) :
    guardNames relative = slashNames relative := by
  have htrim : trim relative = relative := by
    apply trim_eq_self
    · intro c hc
      by_cases hslash : c = '/'
      · subst hslash
        decide
      obtain ⟨rest, htext⟩ := head?_eq_some_iff.mp hc
      obtain ⟨first, others, hsplit⟩ :=
        exists_cons_of_ne_nil (splitOnP_ne_nil (· == '/') rest)
      have hpiece : String.ofList (c :: first) ∈ slashPieces relative := by
        rw [ofList_mem_slashPieces_iff, htext, splitOnP_cons_eq_if_modifyHead,
          if_neg (by simpa using hslash), hsplit]
        exact mem_cons_self
      have hfst := trim_first (String.ofList (c :: first))
      rw [h.trimmed _ hpiece] at hfst
      exact hfst c (by simp)
    · intro c hc
      by_cases hslash : c = '/'
      · subst hslash
        decide
      obtain ⟨front, htext⟩ := getLast?_eq_some_iff.mp hc
      obtain ⟨before, last, -, hsplit⟩ : ∃ before last,
          front.splitOnP (· == '/') = before ++ [last] ∧
          (front ++ [c]).splitOnP (· == '/') = before ++ [last ++ [c]] :=
        splitOnP_append_right (by simpa using hslash) front
      have hpiece : String.ofList (last ++ [c]) ∈ slashPieces relative := by
        rw [ofList_mem_slashPieces_iff, htext, hsplit]
        simp
      have hfinal := trim_last (String.ofList (last ++ [c]))
      rw [h.trimmed _ hpiece] at hfinal
      exact hfinal c (by simp)
  have hpieces : guardPieces relative = slashPieces relative := by
    have hsame : splitAtChars (fun c => c == '/' || c == '\\') relative =
        slashPieces relative := by
      refine congrArg (List.map String.ofList) (splitOnP_congr fun c hc => ?_)
      have hne : c ≠ '\\' := fun heq => h.noBackslash (heq ▸ hc)
      simp [hne]
    rw [guardPieces, htrim, hsame]
    exact (map_congr_left h.trimmed).trans (map_id _)
  rw [guardNames, slashNames, hpieces]

/-- The directories down to a place, which is given from its end. -/
def dirsTo {N α : Type} [DecidableEq N] : Loc N → Tree N α
  | [] => .empty
  | name :: above => (dirsTo above).makeDir (above.reverse ++ [name])

lemma node_dirsTo {N α : Type} [DecidableEq N] (reversed k : Loc N) :
    (dirsTo reversed : Tree N α).node k = if k <+: reversed.reverse then some .dir else none := by
  induction reversed generalizing k with
  | nil =>
    by_cases hk : k = []
    · subst hk
      rfl
    · rw [reverse_nil, if_neg (by simpa using hk)]
      exact if_neg hk
  | cons name above ih =>
    have hfresh : ¬ above.reverse ++ [name] <+: above.reverse := by
      intro hpre
      have hlen := hpre.length_le
      simp at hlen
    have htakes : (dirsTo above : Tree N α).takesDir (above.reverse ++ [name]) = true := by
      rw [takesDir, Bool.and_eq_true]
      refine ⟨hasParent_iff.mpr ⟨above.reverse, name, rfl, ?_⟩, ?_⟩
      · rw [ih, if_pos prefix_rfl]
      · rw [ih, if_neg hfresh]
        rfl
    rw [dirsTo, node_makeDir htakes, ih, reverse_cons]
    by_cases hk : k = above.reverse ++ [name]
    · rw [if_pos hk, if_pos (by rw [hk])]
    · simp only [hk, if_false, prefix_concat_iff, false_or]

/-- The tree with a file at a place and the directories above it. -/
def oneFile {N α : Type} [DecidableEq N] (above : Loc N) (name : N) (content : α) : Tree N α :=
  (dirsTo above.reverse).putFile (above ++ [name]) content

lemma node_oneFile {N α : Type} [DecidableEq N] (above : Loc N) (name : N) (v : α)
    (k : Loc N) :
    (oneFile above name v).node k =
      if k = above ++ [name] then some (.file v)
      else if k <+: above then some .dir else none := by
  have htakes : (dirsTo above.reverse : Tree N α).takesFile (above ++ [name]) = true := by
    have hfresh : ¬ above ++ [name] <+: above := by
      intro hpre
      have hlen := hpre.length_le
      simp at hlen
    rw [takesFile, Bool.and_eq_true]
    refine ⟨hasParent_iff.mpr ⟨above, name, rfl, ?_⟩, ?_⟩
    · rw [node_dirsTo, reverse_reverse, if_pos prefix_rfl]
    · rw [node_dirsTo, reverse_reverse, if_neg hfresh]
      rfl
  rw [oneFile, node_putFile htakes, node_dirsTo, reverse_reverse]

lemma noLinks_oneFile {N α : Type} [DecidableEq N] (above : Loc N) (name : N) (v : α)
    (l : Loc N) : (oneFile above name v).NoLinks l := by
  intro k _
  rw [Bool.eq_false_iff, ne_eq, isLink_iff]
  rintro ⟨tgt, htgt⟩
  rw [node_oneFile] at htgt
  split_ifs at htgt <;> cases htgt

/-- A walk without links that ends as in a directory finds directories only. -/
lemma node_of_resolve_open {N α : Type} [DecidableEq N] {t : Tree N α} (links : ℕ)
    (cur below : Loc N) {found : Loc N} (hcur : t.node cur = some .dir)
    (hlinks : t.NoLinks (cur ++ below))
    (h : t.resolve links cur (below.map .down ++ [.here]) = .found found) :
    t.node found = some .dir := by
  induction below generalizing cur with
  | nil =>
    rw [map_nil, nil_append, resolve_here, resolve_nil] at h
    cases h
    exact hcur
  | cons name rest ih =>
    have hsplit : cur ++ name :: rest = (cur ++ [name]) ++ rest := by simp
    rw [hsplit] at hlinks
    rw [map_cons, cons_append, resolve_down] at h
    have hmore : (rest.map PathStep.down ++ [PathStep.here]).isEmpty = false := by simp
    cases hnode : t.node (cur ++ [name]) with
    | none =>
      rw [hnode, hmore] at h
      cases h
    | some node =>
      rw [hnode, hmore] at h
      cases node with
      | dir => exact ih (cur ++ [name]) hnode hlinks h
      | file v => cases h
      | link tgt => exact absurd hnode (hlinks.node_ne (prefix_append _ rest) tgt)

/-- In every state of the files, the predicates about a path text observe the file that a step with
that path writes, through the local probe and through the registry. -/
def ObservesTarget (relative : String) : Prop :=
  ∀ (outside : Outside) (policy : ProbePolicy) (host : Host) (root : Place) (target : String),
    host.canonicalize (render root) = .ok root →
    safeJoin host.view (render root) relative = .ok target →
      localValue host (render root) ("file:" ++ relative ++ ".exists") =
          some (.bool (host.pathExists target)) ∧
      localValue host (render root) ("file:" ++ relative ++ ".content") =
          (host.readToString target).toOption.map Json.string ∧
      sourceValue outside host (render root) policy ("file:" ++ relative ++ ".exists") =
          some (.bool (host.pathExists target)) ∧
      sourceValue outside host (render root) policy ("file:" ++ relative ++ ".content") =
        match host.readToString target with
        | .ok text => some (.string text)
        | .error _ => if host.pathExists target then none else some (.bool false)

lemma WrittenPlainly.observesTarget (h : WrittenPlainly relative) :
    ObservesTarget relative := by
  intro outside pol host root tgt hroot htgt
  obtain ⟨hallow, other, hother, rfl, -⟩ := (safeJoin_eq_ok_iff ..).mp htgt
  cases hroot.symm.trans hother
  have hparse : parsePath (pathJoin (render root) relative) =
      parsePath (render (root ++ guardNames relative)) := by
    rw [parsePath_pathJoin root (not_startsWith_slash hallow).1 (dots_notMem_slashPieces hallow),
      parsePath_render, h.guardNames_eq, stepsDown, if_neg fun hopen => h.endsInName hopen.2]
  have hex : host.pathExists (pathJoin (render root) relative) =
      host.pathExists (render (root ++ guardNames relative)) := by
    rw [Host.pathExists, Host.pathExists, hparse]
  have hread : host.readToString (pathJoin (render root) relative) =
      host.readToString (render (root ++ guardNames relative)) := by
    rw [Host.readToString, Host.readToString, Host.readFile, Host.readFile, Host.onPath,
      Host.onPath, hparse]
  rw [localValue_exists, localValue_content, sourceValue_exists, sourceValue_content, hex,
    hread]
  exact ⟨rfl, rfl, rfl, rfl⟩

def soloRoot : Place := [wsName]

/-- A host on which the only file is the target of a request. -/
lemma exists_solo_host (h : allowedText relative = true) :
    ∃ host : Host, (∀ l, host.tree.NoLinks l) ∧
      (∀ l, (∃ v, host.tree.node l = some (.file v)) ↔
        l = soloRoot ++ guardNames relative) ∧
      host.tree.node (soloRoot ++ guardNames relative) = some (.file "x".toUTF8) ∧
      host.canonicalize (render soloRoot) = .ok soloRoot ∧
      safeJoin host.view (render soloRoot) relative =
        .ok (render (soloRoot ++ guardNames relative)) := by
  obtain ⟨above, name, hplace⟩ : ∃ above name,
      soloRoot ++ guardNames relative = above ++ [name] := by
    rcases eq_nil_or_concat (soloRoot ++ guardNames relative) with hnil | ⟨above, name, heq⟩
    · simp [soloRoot] at hnil
    · exact ⟨above, name, heq.trans concat_eq_append⟩
  let host : Host := { tree := oneFile above name "x".toUTF8, cwd := [] }
  have hlinks : ∀ l, host.tree.NoLinks l := noLinks_oneFile above name "x".toUTF8
  have hfile : host.tree.node (soloRoot ++ guardNames relative) = some (.file "x".toUTF8) := by
    rw [hplace]
    exact (node_oneFile ..).trans (if_pos rfl)
  have hroot : host.tree.node soloRoot ≠ none := by
    by_cases hnames : guardNames relative = []
    · rw [hnames, append_nil] at hfile
      rw [hfile]
      exact Option.some_ne_none _
    · rw [node_above hnames (by rw [hfile]; exact Option.some_ne_none _)]
      exact Option.some_ne_none _
  have hcanon := Host.canonicalize_render (hlinks soloRoot) hroot
  have hfound {l d : Place} (hd : host.locate (render l) = .found d) : d = l := by
    rw [Host.locate_plain (hlinks l), plainOutcome] at hd
    split_ifs at hd
    cases hd
    rfl
  refine ⟨host, hlinks, fun l => ⟨?_, ?_⟩, hfile, hcanon, ?_⟩
  · rintro ⟨v, hcont⟩
    have hnode := (node_oneFile above name "x".toUTF8 l).symm.trans hcont
    split_ifs at hnode with hl
    · exact hl.trans hplace.symm
    · cases hnode
  · rintro rfl
    exact ⟨_, hfile⟩
  · refine (safeJoin_eq_ok_iff ..).mpr ⟨h, soloRoot, hcanon, rfl, ?_⟩
    apply ancestorCheck_eq_ok
    · refine ⟨soloRoot, ?_⟩
      rw [Host.locate_plain (hlinks soloRoot), plainOutcome,
        if_pos (Option.isSome_iff_ne_none.mpr hroot)]
    · intro k d _ hd
      rw [hfound hd]
      exact looksInside_append soloRoot k

/-- What is read is in a file that the path leads to. -/
lemma Host.exists_file_of_readToString {host : Host} {path : String}
    (h : host.readToString path = .ok text) :
    ∃ route l content, parsePath path = some route ∧
      host.tree.locate host.cwd route = .found l ∧ host.tree.node l = some (.file content) := by
  unfold Host.readToString Host.readFile Host.onPath at h
  cases hparse : parsePath path with
  | none =>
    rw [hparse] at h
    cases h
  | some route =>
    rw [hparse] at h
    dsimp only at h
    unfold Tree.readFile Tree.canonicalize at h
    cases hlocate : host.tree.locate host.cwd route with
    | missing l =>
      rw [hlocate] at h
      cases h
    | failed error =>
      rw [hlocate] at h
      cases h
    | found l =>
      rw [hlocate] at h
      dsimp only at h
      cases hcont : host.tree.content l with
      | none =>
        rw [hcont] at h
        cases h
      | some content =>
        exact ⟨route, l, content, rfl, hlocate, content_eq_some_iff.mp hcont⟩

/-- A request whose predicates observe its target leads down the names that the guard reads, and
ends in one. -/
lemma ObservesTarget.names_eq (h : ObservesTarget relative)
    (hallow : allowedText relative = true) :
    slashNames relative = guardNames relative ∧ ¬ EndsOpen relative := by
  obtain ⟨host, hlinks, honly, hfile, hroot, hjoin⟩ := exists_solo_host hallow
  let outside : Outside := ⟨0, fun _ => none, fun _ _ => none, fun _ _ => false, fun _ _ => false,
    0, fun _ => ""⟩
  obtain ⟨-, hcont, -⟩ := h outside {} host soloRoot _ hroot hjoin
  have hread : host.readToString (render (soloRoot ++ guardNames relative)) = .ok "x" :=
    (Host.readToString_render (hlinks _)).mpr hfile
  rw [localValue_content, hread] at hcont
  obtain ⟨text, htext, -⟩ := Option.map_eq_some_iff.mp hcont
  have hraw : host.readToString (pathJoin (render soloRoot) relative) = .ok text := by
    cases hres : host.readToString (pathJoin (render soloRoot) relative) with
    | error error =>
      rw [hres] at htext
      cases htext
    | ok found =>
      rw [hres] at htext
      exact congrArg Except.ok (Option.some.inj htext)
  obtain ⟨route, l, content, hroute, hlocate, hnode⟩ := Host.exists_file_of_readToString hraw
  have hplace := (honly l).mp ⟨content, hnode⟩
  rw [parsePath_pathJoin soloRoot (not_startsWith_slash hallow).1
    (dots_notMem_slashPieces hallow)] at hroute
  cases hroute
  have hne : soloRoot ++ slashNames relative ≠ [] := by simp [soloRoot]
  by_cases hopen : EndsOpen relative
  · -- a file is not found where a directory is asked for
    rw [stepsDown, if_pos ⟨hne, hopen⟩] at hlocate
    have hdir := node_of_resolve_open maxLinks [] (soloRoot ++ slashNames relative)
      host.tree.node_root (hlinks _) hlocate
    rw [hdir] at hnode
    cases hnode
  · rw [stepsDown, if_neg fun hboth => hopen hboth.2] at hlocate
    have hout := (locate_wayTo host.cwd
      (hlinks (soloRoot ++ slashNames relative))).symm.trans hlocate
    rw [plainOutcome] at hout
    split_ifs at hout
    cases hout
    exact ⟨append_cancel_left hplace, hopen⟩

/-- The predicates of an accepted path observe the file that a step with that path writes, in every
state of the files, exactly if the path is written as the guard reads it: without backslashes,
without white space around its pieces, and with a name at its end. -/
theorem observesTarget_iff (relative : String) :
    ObservesTarget relative ↔ (allowedText relative = true → WrittenPlainly relative) := by
  constructor
  · intro h hallowed
    obtain ⟨hnames, hends⟩ := h.names_eq hallowed
    have hspelled := spelled_guardNames hallowed
    -- every piece is a name that the guard reads as it is, or is skipped
    have hpiece : ∀ piece ∈ slashPieces relative,
        piece = "" ∨ piece = "." ∨ ∃ name : FileName, name.val = piece ∧ Spelled name := by
      intro piece hmem
      by_cases hempty : piece = ""
      · exact .inl hempty
      by_cases hdot : piece = "."
      · exact .inr (.inl hdot)
      have hdots : piece ≠ ".." := fun heq => dots_notMem_slashPieces hallowed (heq ▸ hmem)
      have hslash : '/' ∉ piece.toList := by
        intro hc
        exact absurd (not_separator_of_mem_splitAtChars hmem hc) (by decide)
      let name : FileName := ⟨piece, hempty, hdot, hdots, hslash⟩
      refine .inr (.inr ⟨name, rfl, hspelled name ?_⟩)
      rw [← hnames]
      exact mem_filterMap.mpr ⟨piece, hmem, fileName?_eq_some_iff.mpr rfl⟩
    refine ⟨fun hback => ?_, fun piece hmem => ?_, hends⟩
    · obtain ⟨piece, hmem, hc⟩ : ∃ piece ∈ relative.toList.splitOnP (· == '/'), '\\' ∈ piece :=
        exists_mem_splitOnP hback (by decide)
      rcases hpiece _ (ofList_mem_slashPieces_iff.mpr hmem) with hempty | hdot | ⟨name, hval, hname⟩
      · rw [String.ofList_eq_empty_iff.mp hempty] at hc
        cases hc
      · rw [← String.toList_inj, String.toList_ofList] at hdot
        rw [hdot] at hc
        exact absurd hc (by decide)
      · refine hname.1 ?_
        rw [hval, String.toList_ofList]
        exact hc
    · rcases hpiece piece hmem with rfl | rfl | ⟨name, rfl, hname⟩
      · decide +kernel
      · decide +kernel
      · exact hname.2.1
  · intro h outside policy host root target hroot htarget
    have hallowed := ((safeJoin_eq_ok_iff ..).mp htarget).1
    exact (h hallowed).observesTarget outside policy host root target hroot htarget

/-- A step with the path `a\b` writes the file `b` in the directory `a`; after it, the file of the
predicate is missing and the file that was written is there. -/
theorem predicate_misses_backslash_target :
    let tree : Tree FileName ByteArray :=
      oneFile [⟨"ws", by decide⟩, ⟨"a", by decide⟩] ⟨"b", by decide⟩ "x".toUTF8
    let host : Host := { tree, cwd := [] }
    safeJoin host.view "/ws" "a\\b" = .ok "/ws/a/b" ∧ host.pathExists "/ws/a/b" = true ∧
      localValue host "/ws" "file:a\\b.exists" = some (.bool false) ∧
      ∀ outside : Outside,
        sourceValue outside host "/ws" {} "file:a\\b.exists" = some (.bool false) := by
  intro tree host
  have hraw : host.pathExists (pathJoin "/ws" "a\\b") = false := by decide +kernel
  refine ⟨by decide +kernel, by decide +kernel, ?_, fun outside => ?_⟩
  · rw [← hraw]
    exact localValue_exists host "/ws" "a\\b"
  · rw [← hraw]
    exact sourceValue_exists outside host "/ws" {} "a\\b"

end ExperienceCodex

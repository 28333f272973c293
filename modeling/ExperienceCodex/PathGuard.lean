import ExperienceCodex.Disk
import ExperienceCodex.Lines

/-!
# The path guard on a host

What `safeJoin` answers when a host answers its questions: an accepted path is the text of the
place that the names of the request lead to from the root of the workspace, and the nearest part
of it that exists has a text under the text of the root.
-/

namespace ExperienceCodex

open List Text FileTree

/-- The pieces of a requested path. -/
def guardPieces (relative : String) : List String :=
  (splitAtChars (fun c => c == '/' || c == '\\') (trim relative)).map trim

/-- The names of a requested path; empty pieces and single dots are skipped. -/
def guardNames (relative : String) : Place := (guardPieces relative).filterMap fileName?

def allowedPiece (piece : String) : Bool :=
  piece.isEmpty || piece == "." ||
    !(piece.toList.contains ':' || piece == ".." || isReservedComponent piece)

/-- The checks that a requested path passes before the file system is asked. -/
def allowedText (relative : String) : Bool :=
  (relativeTextError (trim relative)).isNone && (guardPieces relative).all allowedPiece

/-- The text that the guard compares with. -/
def rootText (root : Place) : String :=
  toAsciiLowercase (String.ofList ((render root).toList.rdropWhile fun c => c == '\\' || c == '/'))

/-- Whether the guard takes a place for one in the workspace. -/
def looksInside (root l : Place) : Bool :=
  underRoot (rootText root) (toAsciiLowercase (render l))

lemma toList_toAsciiLowercase (text : String) :
    (toAsciiLowercase text).toList = text.toList.map Char.toLower := by
  simp [toAsciiLowercase]

lemma underRoot_iff {root path : String} :
    underRoot root path = true ↔ path.toList = root.toList ∨
      ∃ sep more, (sep = '\\' ∨ sep = '/') ∧
        path.toList = root.toList ++ sep :: more := by
  have hstarts : ∀ c : Char, startsWith path (root ++ String.ofList [c]) = true ↔
      ∃ more, path.toList = root.toList ++ c :: more := by
    intro c
    rw [startsWith, isPrefixOf_iff_prefix]
    simp only [String.toList_append, String.toList_ofList]
    constructor
    · rintro ⟨more, h⟩
      exact ⟨more, by simpa using h.symm⟩
    · rintro ⟨more, h⟩
      exact ⟨more, by simpa using h.symm⟩
  have hback : "\\" = String.ofList ['\\'] := rfl
  have hslash : "/" = String.ofList ['/'] := rfl
  unfold underRoot
  rw [Bool.or_eq_true, Bool.or_eq_true, decide_eq_true_eq, hback, hslash, hstarts, hstarts,
    ← String.toList_inj, or_assoc]
  constructor
  · rintro (h | ⟨more, h⟩ | ⟨more, h⟩)
    · exact .inl h
    · exact .inr ⟨'\\', more, .inl rfl, h⟩
    · exact .inr ⟨'/', more, .inr rfl, h⟩
  · rintro (h | ⟨sep, more, rfl | rfl, h⟩)
    · exact .inl h
    · exact .inr (.inl ⟨more, h⟩)
    · exact .inr (.inr ⟨more, h⟩)

lemma rdropWhile_append_tail (q : Char → Bool) (chars : List Char) :
    ∃ tail, chars = chars.rdropWhile q ++ tail ∧ ∀ c ∈ tail, q c = true :=
  ⟨_, rdropWhile_append_rtakeWhile.symm, fun _ => mem_rtakeWhile_imp⟩

/-- What is in the workspace looks so. -/
lemma looksInside_append (root below : Place) : looksInside root (root ++ below) = true := by
  obtain ⟨tail, htail, hseparators⟩ :=
    rdropWhile_append_tail (fun c => c == '\\' || c == '/') (render root).toList
  set trimmed := (render root).toList.rdropWhile fun c => c == '\\' || c == '/' with htrimmed
  have hafter : (render (root ++ below)).toList = trimmed ∨
      ∃ sep more, (sep = '\\' ∨ sep = '/') ∧
        (render (root ++ below)).toList = trimmed ++ sep :: more := by
    have hfst : ∀ c rest, tail = c :: rest → c = '\\' ∨ c = '/' := by
      intro c rest h
      have hc := hseparators c (by rw [h]; exact mem_cons_self ..)
      simpa using hc
    by_cases hbelow : below = []
    · rw [hbelow, append_nil]
      cases htailCases : tail with
      | nil =>
        rw [htailCases, append_nil] at htail
        exact .inl htail
      | cons c rest =>
        rw [htailCases] at htail
        exact .inr ⟨c, rest, hfst c rest htailCases, htail⟩
    · rw [toList_render_append root below hbelow]
      by_cases hroot : root = []
      · have hnil : trimmed = [] := by
          rw [htrimmed, hroot]
          decide
        rw [if_pos hroot, hnil, toList_render]
        exact .inr ⟨'/', _, .inr rfl, rfl⟩
      · rw [if_neg hroot, htail]
        cases htailCases : tail with
        | nil =>
          rw [append_nil, toList_render below]
          exact .inr ⟨'/', _, .inr rfl, rfl⟩
        | cons c rest =>
          rw [append_assoc, cons_append]
          exact .inr ⟨c, _, hfst c rest htailCases, rfl⟩
  rw [looksInside, underRoot_iff, rootText, toList_toAsciiLowercase, toList_toAsciiLowercase,
    String.toList_ofList, ← htrimmed]
  rcases hafter with hsame | ⟨sep, more, hsep, hmore⟩
  · exact .inl (by rw [hsame])
  · refine .inr ⟨sep, more.map Char.toLower, hsep, ?_⟩
    rw [hmore, map_append, map_cons]
    rcases hsep with rfl | rfl <;> rfl

lemma not_separator_of_mem_splitAtChars {sep : Char → Bool} {text piece : String}
    (hpiece : piece ∈ splitAtChars sep text) {c : Char} (hc : c ∈ piece.toList) :
    sep c = false := by
  obtain ⟨chars, hchars, rfl⟩ := mem_map.mp hpiece
  rw [String.toList_ofList] at hc
  exact (Lines.mem_of_mem_splitOnP hchars c hc).2

lemma not_slash_of_mem_guardPieces {relative piece : String}
    (h : piece ∈ guardPieces relative) : '/' ∉ piece.toList ∧ '\\' ∉ piece.toList := by
  obtain ⟨raw, hraw, rfl⟩ := mem_map.mp h
  constructor
  · intro hmem
    simpa using not_separator_of_mem_splitAtChars hraw ((infix_trim _).subset hmem)
  · intro hmem
    simpa using not_separator_of_mem_splitAtChars hraw ((infix_trim _).subset hmem)

lemma pushComponents_render (l : Place) (raws : List String)
    (hslash : ∀ raw ∈ raws, '/' ∉ (trim raw).toList) (path : String) :
    pushComponents (render l) raws = .ok path ↔
      (raws.map trim).all allowedPiece = true ∧
        path = render (l ++ (raws.map trim).filterMap fileName?) := by
  induction raws generalizing l with
  | nil =>
    simp only [pushComponents, map_nil, all_nil, filterMap_nil, append_nil,
      true_and, Except.ok.injEq]
    exact eq_comm
  | cons raw rest ih =>
    have ih' := fun l => ih l (forall_mem_of_forall_mem_cons hslash)
    have hraw := hslash raw (mem_cons_self ..)
    rw [pushComponents, map_cons, all_cons, filterMap_cons]
    generalize trim raw = piece at hraw ⊢
    by_cases hskip : piece.isEmpty = true ∨ piece = "."
    · have hnone : fileName? piece = none := by
        rw [fileName?, dif_neg]
        rintro ⟨hempty, hdot, -⟩
        rcases hskip with h | h
        · exact hempty (String.isEmpty_iff.mp h)
        · exact hdot h
      have hallow : allowedPiece piece = true := by
        rcases hskip with h | h <;> simp [allowedPiece, h]
      have hcond : (piece.isEmpty || decide (piece = ".")) = true := by
        simpa using hskip
      rw [if_pos hcond, hnone, hallow, Bool.true_and]
      exact ih' l
    · have hcond : ¬ (piece.isEmpty || decide (piece = ".")) = true := by
        simpa using hskip
      rw [if_neg hcond]
      obtain ⟨hempty, hdot⟩ := not_or.mp hskip
      by_cases hbad : (piece.toList.contains ':' || piece == ".." ||
          isReservedComponent piece) = true
      · have hallow : allowedPiece piece = false := by
          simp only [allowedPiece, Bool.or_eq_false_iff, Bool.not_eq_false']
          exact ⟨⟨Bool.eq_false_iff.mpr hempty, by simpa using hdot⟩, hbad⟩
        rw [hallow, Bool.false_and]
        simp only [Bool.or_eq_true, beq_iff_eq] at hbad
        split_ifs with hcolon hup hreserved
        · simp
        · simp
        · simp
        · exact absurd hbad (by simp only [hcolon, hup, hreserved]; simp)
      · have hallow : allowedPiece piece = true := by
          simp only [allowedPiece, Bool.or_eq_true, Bool.not_eq_true']
          exact .inr (Bool.eq_false_iff.mpr hbad)
        simp only [Bool.or_eq_true, beq_iff_eq, not_or] at hbad
        obtain ⟨⟨hcolon, hup⟩, hreserved⟩ := hbad
        have hname : IsFileName piece :=
          ⟨fun h => hempty (String.isEmpty_iff.mpr h), hdot, hup, hraw⟩
        have hsome : fileName? piece = some ⟨piece, hname⟩ := dif_pos hname
        rw [if_neg hcolon, if_neg hup, if_neg hreserved, hsome, hallow, Bool.true_and]
        have hjoin := pathJoin_render l ⟨piece, hname⟩
        simp only at hjoin
        rw [hjoin]
        refine (ih' _).trans ?_
        rw [append_assoc, singleton_append]

section
variable (host : Host) (text : String)

lemma ancestorCheck_found (fuel : ℕ) {l d : Place} (h : host.locate (render l) = .found d) :
    ancestorCheck host.view text (fuel + 1) (render l) =
      if underRoot text (toAsciiLowercase (render d)) then .ok () else .error .symlinkEscape := by
  simp only [ancestorCheck, Host.view, Host.canonicalize, h, if_true]

lemma ancestorCheck_above (fuel : ℕ) {l : Place} {name : FileName}
    (h : ∀ d, host.locate (render (l ++ [name])) ≠ .found d) :
    ancestorCheck host.view text (fuel + 1) (render (l ++ [name])) =
      ancestorCheck host.view text fuel (render l) := by
  have hex : host.view.pathExists (render (l ++ [name])) = false := by
    simp only [Host.view]
  simp only [ancestorCheck, hex, Bool.false_eq_true, if_false, componentsParent_render,
    ofComponents_root]

/-- The check passes if the root exists and every part below it that exists looks inside. -/
lemma ancestorCheck_eq_ok (fuel : ℕ) (root below : Place)
    (hroot : ∃ d, host.locate (render root) = .found d)
    (h : ∀ k d, k <+: below → host.locate (render (root ++ k)) = .found d →
      underRoot text (toAsciiLowercase (render d)) = true) :
    ancestorCheck host.view text fuel (render (root ++ below)) = .ok () := by
  induction below using List.reverseRecOn generalizing fuel with
  | nil =>
    cases fuel with
    | zero => rfl
    | succ fuel =>
      obtain ⟨d, hd⟩ := hroot
      rw [append_nil, ancestorCheck_found host text fuel hd,
        if_pos (h [] d prefix_rfl (by rwa [append_nil]))]
  | append_singleton above name ih =>
    cases fuel with
    | zero => rfl
    | succ fuel =>
      by_cases hfound : ∃ d, host.locate (render (root ++ (above ++ [name]))) = .found d
      · obtain ⟨d, hd⟩ := hfound
        rw [ancestorCheck_found host text fuel hd, if_pos (h _ d prefix_rfl hd)]
      · rw [← append_assoc] at hfound ⊢
        rw [ancestorCheck_above host text fuel fun d hd => hfound ⟨d, hd⟩]
        exact ih fuel fun k d hk => h k d (hk.trans (prefix_append _ _))

end

/-- What an accepted path is. -/
lemma safeJoin_eq_ok_iff (host : Host) (workspace relative path : String) :
    safeJoin host.view workspace relative = .ok path ↔
      allowedText relative = true ∧ ∃ root, host.canonicalize workspace = .ok root ∧
        path = render (root ++ guardNames relative) ∧
        ancestorCheck host.view (rootText root) ((root ++ guardNames relative).length + 2) path =
          .ok () := by
  have hlen : ∀ l : Place, (pathComponents (render l)).length + 1 = l.length + 2 := by
    intro l
    simp [pathComponents_render]
  unfold safeJoin allowedText
  cases htext : relativeTextError (trim relative) with
  | some error => simp [htext, throw, throwThe, MonadExceptOf.throw]
  | none =>
    cases hroot : host.canonicalize workspace with
    | error error =>
      simp [htext, Host.view, hroot, throw, throwThe, MonadExceptOf.throw, bind, Except.bind]
    | ok root =>
      have hpush := pushComponents_render root
        (splitAtChars (fun c => c == '/' || c == '\\') (trim relative)) (fun raw hraw =>
          (not_slash_of_mem_guardPieces (mem_map_of_mem hraw)).1)
      have hview : host.view.canonicalize workspace = .ok (render root) := by
        simp only [Host.view, hroot]
      simp only [htext, hview, pure_bind, Option.isNone_none, Bool.true_and]
      cases hcand : pushComponents (render root)
          (splitAtChars (fun c => c == '/' || c == '\\') (trim relative)) with
      | error error =>
        have hnot : ¬ (guardPieces relative).all allowedPiece = true := by
          intro hall
          have := (hpush _).mpr ⟨hall, rfl⟩
          rw [hcand] at this
          cases this
        simp [hnot, bind, Except.bind]
      | ok candidate =>
        obtain ⟨hall, rfl⟩ := (hpush candidate).mp hcand
        have hinside := looksInside_append root (guardNames relative)
        rw [looksInside, rootText, guardNames, guardPieces] at hinside
        simp only [bind, Except.bind]
        rw [if_neg (by rw [hinside]; decide), hlen]
        constructor
        · intro h
          split at h
          · cases h
          · next hcheck =>
            cases h
            exact ⟨hall, root, rfl, rfl, hcheck⟩
        · rintro ⟨-, other, hother, rfl, hcheck⟩
          cases hother
          unfold rootText guardNames guardPieces at hcheck
          rw [hcheck]
          rfl

end ExperienceCodex

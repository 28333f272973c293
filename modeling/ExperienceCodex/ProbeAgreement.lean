import ExperienceCodex.StateSource

/-!
# Two probes of one workspace

The gate observes predicates through its local probe and the server through the registry of state
sources.  On the keys that both serve they give the same value, except for a working directory that
is no directory and for the content of a file that is missing.  The registry also answers for a
spelling of ports that no family is registered for.
-/

namespace ExperienceCodex

open Text

/-- The keys that the local probe serves. -/
def LocalKey (key : String) : Prop :=
  key = "cwd.exists" ∨
    ∃ path, key = "file:" ++ path ++ ".exists" ∨ key = "file:" ++ path ++ ".content"

section
variable (outside : Outside) (host : Host) (baseDir : String) (policy : ProbePolicy)

/-- The value of the local probe in the workspace. -/
def localValue (key : String) : Option Json :=
  localProbe (hostFs host.cwd) host.tree { cwd := baseDir } key

/-- The value of the registry in the workspace. -/
def sourceValue (key : String) : Option Json := (outside.probe host key baseDir policy).value

variable (path : String)

theorem localValue_exists :
    localValue host baseDir ("file:" ++ path ++ ".exists") =
      some (.bool (host.pathExists (pathJoin baseDir path))) := by
  simp only [localValue, localProbe, String.append_assoc, file_key_ne_cwd, if_false,
    stripStart_append, stripEnd_append]
  rfl

theorem localValue_content :
    localValue host baseDir ("file:" ++ path ++ ".content") =
      (host.readToString (pathJoin baseDir path)).toOption.map Json.string := by
  simp only [localValue, localProbe, String.append_assoc, file_key_ne_cwd, if_false,
    stripStart_append, stripEnd_content_exists, stripEnd_append, hostFs]
  cases host.readToString (pathJoin baseDir path) <;> rfl

lemma stripEnd_exists_content :
    stripEnd (path ++ ".exists") ".content" = none := by
  rw [stripEnd, if_neg]
  rw [Bool.not_eq_true, endsWith, Bool.eq_false_iff]
  intro h
  obtain ⟨front, hfront⟩ := List.isSuffixOf_iff_suffix.mp h
  have hlast := congrArg List.getLast? hfront
  simp [String.toList_append] at hlast

theorem sourceValue_exists :
    sourceValue outside host baseDir policy ("file:" ++ path ++ ".exists") =
      some (.bool (host.pathExists (pathJoin baseDir path))) := by
  simp only [sourceValue, Outside.probe, String.append_assoc, file_key_ne_cwd, if_false,
    stripStart_append, Outside.probeFile, stripEnd_exists_content, stripEnd_append,
    Outside.observed]

/-- A file that is missing has the content `false` here. -/
theorem sourceValue_content :
    sourceValue outside host baseDir policy ("file:" ++ path ++ ".content") =
      match host.readToString (pathJoin baseDir path) with
      | .ok text => some (.string text)
      | .error _ =>
        if host.pathExists (pathJoin baseDir path) then none else some (.bool false) := by
  simp only [sourceValue, Outside.probe, String.append_assoc, file_key_ne_cwd, if_false,
    stripStart_append, Outside.probeFile, stripEnd_append]
  cases host.readToString (pathJoin baseDir path) with
  | ok text => rfl
  | error error =>
    dsimp only
    split_ifs <;> rfl

theorem content_values_eq_iff :
    localValue host baseDir ("file:" ++ path ++ ".content") =
        sourceValue outside host baseDir policy ("file:" ++ path ++ ".content") ↔
      host.pathExists (pathJoin baseDir path) = true := by
  rw [localValue_content, sourceValue_content]
  cases hread : host.readToString (pathJoin baseDir path) with
  | ok text =>
    have hex : host.pathExists (pathJoin baseDir path) = true :=
      (hostFs host.cwd).exists_of_read hread
    simp [hex, Except.toOption]
  | error error =>
    cases host.pathExists (pathJoin baseDir path) <;> simp [Except.toOption]

theorem cwd_values_eq_iff :
    localValue host baseDir "cwd.exists" = sourceValue outside host baseDir policy "cwd.exists" ↔
      (host.pathExists baseDir = true → host.pathIsDir baseDir = true) := by
  have hlocal : localValue host baseDir "cwd.exists" = some (.bool (host.pathExists baseDir)) := rfl
  have hsrc : sourceValue outside host baseDir policy "cwd.exists" =
      some (.bool (host.pathIsDir baseDir)) := rfl
  have hdir : host.pathIsDir baseDir = true → host.pathExists baseDir = true := by
    unfold Host.pathIsDir Host.pathExists FileTree.Tree.pathIsDir FileTree.Tree.pathExists
    cases parsePath baseDir with
    | none => simp
    | some route =>
      dsimp only
      cases host.tree.locate host.cwd route with
      | found l => exact fun _ => rfl
      | missing l => exact fun h => absurd h Bool.false_ne_true
      | failed error => exact fun h => absurd h Bool.false_ne_true
  rw [hlocal, hsrc, Option.some.injEq, Json.bool.injEq, Bool.eq_iff_iff]
  exact ⟨Iff.mp, fun h => ⟨h, hdir⟩⟩

lemma stripStart_eq_none_iff (text pattern : String) :
    stripStart text pattern = none ↔ startsWith text pattern = false := by
  simp [stripStart]

lemma eq_append_of_stripStart {text pattern rest : String}
    (h : stripStart text pattern = some rest) : text = pattern ++ rest := by
  unfold stripStart at h
  split_ifs at h with hstarts
  obtain ⟨tail, htail⟩ := List.isPrefixOf_iff_prefix.mp hstarts
  cases h
  rw [← String.toList_inj, String.toList_append, String.toList_ofList, ← htail, List.drop_left]

/-- A key that no family is registered for is unknown, unless it is a port in the other
spelling. -/
theorem probe_of_not_observable {key : String} (h : observable key = false) :
    outside.probe host key baseDir policy =
      match stripStart key "port:" with
      | some rest => outside.probePort rest policy
      | none => outside.unknown ("unregistered:" ++ key) := by
  unfold observable familyOf at h
  by_cases hfs : key = "cwd.exists" ∨ startsWith key "file:" = true ∨ startsWith key "dir:" = true
  · rw [if_pos hfs] at h
    cases h
  rw [if_neg hfs] at h
  split_ifs at h with hexec hgit hhttp hport
  · cases h
  · cases h
  · cases h
  · cases h
  simp only [not_or, Bool.not_eq_true] at hfs hgit hhttp hport
  have hfile := (stripStart_eq_none_iff key "file:").mpr hfs.2.1
  have hdir := (stripStart_eq_none_iff key "dir:").mpr hfs.2.2
  have hgit := (stripStart_eq_none_iff key "git.").mpr hgit
  have hhttp := (stripStart_eq_none_iff key "http.").mpr hhttp
  have hport := (stripStart_eq_none_iff key "port.").mpr hport
  rw [Outside.probe, if_neg hfs.1]
  cases stripStart key "port:" <;> simp only [hfile, hdir, hgit, hhttp, hport]

lemma not_observable_port (rest : String) : observable ("port:" ++ rest) = false := by
  have hcwd : "port:" ++ rest ≠ "cwd.exists" := by
    intro h
    have hchars := congrArg (fun text => text.toList.head?) h
    simp [String.toList_append] at hchars
  simp [observable, familyOf, hcwd, startsWith, String.toList_append, List.isPrefixOf]

lemma probePort_value_eq_none_iff (rest : String) :
    (outside.probePort rest policy).value = none ↔ parseU16 rest = none := by
  unfold Outside.probePort
  cases parseU16 rest with
  | none => simp [Outside.unknown]
  | some port => simp [Outside.observed]

theorem registered_iff (key : String) :
    (sourceValue outside host baseDir policy key ≠ none → observable key = true) ↔
      ∀ rest, key = "port:" ++ rest → parseU16 rest = none := by
  constructor
  · rintro h rest rfl
    have hnot := not_observable_port rest
    have hnone : sourceValue outside host baseDir policy ("port:" ++ rest) = none := by
      by_contra hsome
      rw [h hsome] at hnot
      cases hnot
    rw [sourceValue, probe_of_not_observable _ _ _ _ hnot, stripStart_append] at hnone
    exact (probePort_value_eq_none_iff ..).mp hnone
  · intro h hsome
    by_contra hnot
    rw [Bool.not_eq_true] at hnot
    rw [sourceValue, probe_of_not_observable _ _ _ _ hnot] at hsome
    cases hport : stripStart key "port:" with
    | none =>
      rw [hport] at hsome
      exact hsome rfl
    | some rest =>
      rw [hport] at hsome
      have hkey : key = "port:" ++ rest := eq_append_of_stripStart hport
      exact hsome ((probePort_value_eq_none_iff ..).mpr (h rest hkey))

/-- The two probes give a key of the local probe the same value, and a key that the registry has a
value for is registered, exactly under three conditions: an existing working directory is a
directory, a file whose content is asked for exists, and a port is not asked for in the spelling
`port:<n>`. -/
theorem probes_agree_iff (key : String) :
    ((LocalKey key → localValue host baseDir key = sourceValue outside host baseDir policy key) ∧
        (sourceValue outside host baseDir policy key ≠ none → observable key = true)) ↔
      (key = "cwd.exists" → host.pathExists baseDir = true → host.pathIsDir baseDir = true) ∧
      (∀ path, key = "file:" ++ path ++ ".content" →
        host.pathExists (pathJoin baseDir path) = true) ∧
      ∀ rest, key = "port:" ++ rest → parseU16 rest = none := by
  rw [registered_iff, ← and_assoc]
  apply and_congr_left'
  constructor
  · intro h
    refine ⟨?_, ?_⟩
    · rintro rfl
      exact (cwd_values_eq_iff ..).mp (h (.inl rfl))
    · rintro path rfl
      exact (content_values_eq_iff ..).mp (h (.inr ⟨path, .inr rfl⟩))
  · rintro ⟨hcwd, hcontent⟩ (rfl | ⟨path, rfl | rfl⟩)
    · exact (cwd_values_eq_iff ..).mpr (hcwd rfl)
    · rw [localValue_exists, sourceValue_exists]
    · exact (content_values_eq_iff ..).mpr (hcontent path rfl)

end

/-- In an empty workspace the content of a file is unknown to the gate and `false` to the server,
and a port is observed under a key that no family is registered for. -/
theorem probes_differ_on_missing :
    localValue { tree := .empty, cwd := [] } "/" "file:a.content" = none ∧
      observable "port:80" = false ∧ ∀ outside : Outside,
        sourceValue outside { tree := .empty, cwd := [] } "/" {} "file:a.content" =
          some (.bool false) ∧
        sourceValue outside { tree := .empty, cwd := [] } "/" {} "port:80" ≠ none := by
  refine ⟨rfl, by decide +kernel, fun outside => ⟨rfl, ?_⟩⟩
  intro h
  cases h

end ExperienceCodex

import ExperienceCodex.FileLayout
import ExperienceCodex.GateHonesty
import ExperienceCodex.Runner

/-!
# The gate on the local files

The local probe and the local runner answer from one file tree.  The keys of the probe are path
texts that the operating system resolves, while the runner's paths pass the guard; a path that is
written as the guard reads it means the same to both.
-/

namespace ExperienceCodex

open Text FileTree

/-- The text in a file, as `read_to_string` reads it. -/
def Host.readToString (host : Host) (path : String) : Except String String :=
  match host.readFile path with
  | .error error => .error error.display
  | .ok bytes =>
    match String.fromUTF8? bytes with
    | some text => .ok text
    | none => .error "stream did not contain valid UTF-8"

lemma Host.pathExists_of_readFile {host : Host} {path : String} {bytes : ByteArray}
    (h : host.readFile path = .ok bytes) : host.pathExists path = true := by
  unfold Host.readFile Host.onPath at h
  unfold Host.pathExists
  cases hparse : parsePath path with
  | none =>
    rw [hparse] at h
    cases h
  | some route =>
    rw [hparse] at h
    dsimp only at h ⊢
    unfold Tree.readFile Tree.canonicalize at h
    unfold Tree.pathExists
    cases hlocate : host.tree.locate host.cwd route with
    | found l => rfl
    | missing l =>
      rw [hlocate] at h
      cases h
    | failed error =>
      rw [hlocate] at h
      cases h

lemma fromUTF8?_eq_some_iff {bytes : ByteArray} {text : String} :
    String.fromUTF8? bytes = some text ↔ bytes = text.toUTF8 := by
  constructor
  · intro h
    unfold String.fromUTF8? at h
    split at h
    · cases h
      rfl
    · cases h
  · rintro rfl
    exact dif_pos text.isValidUTF8

/-- The text in the file at a place. -/
lemma Host.readToString_render {host : Host} {l : Place} (h : host.tree.NoLinks l) {text : String} :
    host.readToString (render l) = .ok text ↔ host.tree.node l = some (.file text.toUTF8) := by
  have hread : host.readFile (render l) = host.tree.readFile host.cwd (wayTo l) := by
    rw [Host.readFile, Host.onPath_render]
  rw [Host.readToString, hread, Tree.readFile]
  cases hnode : host.tree.node l with
  | none =>
    obtain ⟨error, herr⟩ := Tree.canonicalize_wayTo_none host.cwd h hnode
    simp [herr]
  | some node =>
    rw [Tree.canonicalize_wayTo host.cwd h (by rw [hnode]; simp)]
    cases node with
    | dir => simp [Tree.content, hnode]
    | link target => simp [Tree.content, hnode]
    | file bytes =>
      simp only [Tree.content_eq_some_iff.mpr hnode, Option.some.injEq, Node.file.injEq]
      rw [← fromUTF8?_eq_some_iff]
      cases String.fromUTF8? bytes with
      | none => simp
      | some found => simp

/-- The files of a tree, for a process that works in a directory. -/
def hostFs (cwd : Place) : LocalFs (Tree FileName ByteArray) where
  readToString tree path := Host.readToString { tree, cwd } path
  pathExists tree path := Host.pathExists { tree, cwd } path
  exists_of_read {tree path content} h := by
    unfold Host.readToString at h
    cases hread : Host.readFile { tree, cwd } path with
    | error error =>
      rw [hread] at h
      cases h
    | ok bytes => exact Host.pathExists_of_readFile hread

/-- What the local probe sees of a predicate. -/
def observes (cwd : Place) (context : GateContext) (tree : Tree FileName ByteArray)
    (predicate : Predicate) : TruthValue :=
  predicate.probe (localProbe (hostFs cwd) tree context predicate.key)

end ExperienceCodex

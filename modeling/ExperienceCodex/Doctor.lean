import ExperienceCodex.Management

/-!
# The doctor of the store

The doctor takes a store for healthy by the format of its file, which is canonical as soon as the
file names a `schema_version`.  The gate needs a file that loads.
-/

namespace ExperienceCodex

open ExperienceStore

def StoreFormat.label : StoreFormat → String
  | .missing => "missing"
  | .canonical => "canonical"
  | .legacy => "legacy"
  | .unknown => "unknown"

structure StoreDoctor (Path : Type) where
  path : Path
  format : StoreFormat
  experiences : ℕ
  templates : ℕ
  pinned : ℕ
  usageEntries : ℕ
  homePath : Path
  homeFormat : StoreFormat
  overrideActive : Bool
  drift : Option String

section
variable {Path : Type} [DecidableEq Path] (display : Path → String) (files : Path → FileContent)
  (usage : FileContent) (path homePath : Path)

def StoreDoctor.isHealthy (doctor : StoreDoctor Path) : Bool :=
  doctor.drift.isNone && decide (doctor.format ≠ .unknown)

/-- The entries of the file `usage.json` next to the store. -/
def readUsageEntries : FileContent → ℕ
  | .document value => ((value.get "entries").bind Json.asObject).elim 0 List.length
  | _ => 0

/-- Inspect the store at the path that was resolved and the one at home. -/
def doctorForStore : StoreDoctor Path :=
  let overrideActive := decide (path ≠ homePath)
  let format := detectFormat (files path)
  let (experiences, templates, pinned) :=
    match format, openFile (display path) (files path) with
    | .canonical, .ok store =>
      (store.all.length, store.templates.items.length, store.pinned.length)
    | _, _ => (0, 0, 0)
  let homeFormat := detectFormat (files homePath)
  let drift :=
    match overrideActive, homeFormat with
    | true, .missing => none
    | true, _ => some ("override store is active (" ++ display path ++
        ") but a home store also exists (" ++ display homePath ++ ", " ++ homeFormat.label ++
        "); management and execution resolve to the override, so the home store is stale")
    | false, _ =>
      match format with
      | .legacy =>
        some ("the home store is in the legacy envelope; the execution plane only reads " ++
          "the canonical envelope, so nothing here can take over")
      | .unknown => some "the home store could not be parsed"
      | _ => none
  { path, format, experiences, templates, pinned, usageEntries := readUsageEntries usage, homePath
    homeFormat, overrideActive, drift }

variable {files path}

lemma isHealthy_iff (h : detectFormat (files path) = .canonical) :
    (doctorForStore display files usage path homePath).isHealthy = true ↔
      path = homePath ∨ files homePath = .missing := by
  have hmissing : detectFormat (files homePath) = .missing ↔ files homePath = .missing := by
    cases files homePath with
    | document value =>
      rw [detectFormat]
      split_ifs <;> simp
    | _ => simp [detectFormat]
  rw [← hmissing]
  by_cases hpath : path = homePath
  · subst hpath
    simp [StoreDoctor.isHealthy, doctorForStore, h]
  · cases hhome : detectFormat (files homePath) <;>
      simp [StoreDoctor.isHealthy, doctorForStore, hpath, hhome, h]

/-- A document opens if it decodes to an envelope that can be loaded. -/
lemma openFile_document_iff (text : String) (value : Json) :
    (∃ store, openFile text (.document value) = .ok store) ↔
      ∃ file, Codec.storeFile.decode value = .ok file ∧ Loadable file := by
  simp only [openFile, fromJson]
  cases Codec.storeFile.decode value with
  | error error =>
    constructor
    · rintro ⟨store, hstore⟩
      cases hstore
    · rintro ⟨file, hfile, -⟩
      cases hfile
  | ok file =>
    constructor
    · rintro ⟨store, hstore⟩
      obtain ⟨loaded, hloaded, -⟩ := bind_eq_ok_iff.mp hstore
      exact ⟨file, rfl, ((fromFile_eq_ok_iff file loaded).mp hloaded).1⟩
    · rintro ⟨_, hfile, h⟩
      cases hfile
      exact ⟨_, bind_eq_ok_iff.mpr ⟨_, (fromFile_eq_ok_iff file _).mpr ⟨h, rfl⟩, rfl⟩⟩

end

end ExperienceCodex

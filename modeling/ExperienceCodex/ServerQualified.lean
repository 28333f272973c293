import ExperienceCodex.Server

/-!
# Which active bodies were qualified

An experience becomes active only from `validated`, and validated only through the qualification
gate.  Two routes go around this: what is created or imported brings its own status, and an
adopted draft puts its body under the status of the original.
-/

namespace ExperienceCodex

open Text ExperienceStore

/-- The statuses that only a qualified body may have. -/
def ExperienceStatus.Privileged (status : ExperienceStatus) : Prop :=
  status = .active ∨ status = .validated

/-- A privileged experience has passed the qualification with the body it has. -/
def Vouched (passed : List (String × Body)) (experience : Experience) : Prop :=
  experience.status.Privileged → (experience.name, experience.body) ∈ passed

/-- The store is well formed and all its experiences are vouched for. -/
structure Server.Qualified (server : Server) : Prop where
  wf : server.store.Wf
  vouched : ∀ experience ∈ server.store.all, Vouched server.passed experience

/-- What may reach a privileged status only through the gate. -/
def ServerOp.KeepsQualified (server : Server) : ServerOp → Prop
  | .create body => ∀ experience, readExperience body = .ok experience →
      ¬ experience.status.Privileged
  | .importExperiences body => ∀ value payload items, body = .ok value →
      value.get "payload" = some payload → payloadItems payload = some items →
      ∀ item ∈ items, ∀ experience, Codec.experience.decode item = .ok experience →
        ¬ experience.status.Privileged
  | .adopt name => ∀ originalName original draft, stripEnd name "__draft" = some originalName →
      server.store.get originalName = some original → server.store.get name = some draft →
      original.status.Privileged → draft.body = original.body
  | _ => True

namespace Server.Qualified

variable {server : Server}

section
variable (h : server.Qualified)
include h

lemma withStore {s : ExperienceStore} (hwf : s.Wf)
    (hmem : ∀ e ∈ s.all, e ∈ server.store.all ∨
      Vouched server.passed e) : (server.withStore s).Qualified := by
  refine ⟨hwf, fun e hexp => ?_⟩
  rcases hmem e hexp with hold | hnew
  · exact h.vouched e hold
  · exact hnew

lemma finish (code : ℕ)
    {o : Except StoreError Unit × ExperienceStore} (hwf : o.2.Wf)
    (hmem : ∀ e ∈ o.2.all, e ∈ server.store.all ∨
      Vouched server.passed e) : (server.finish code o).2.Qualified := by
  obtain ⟨r, s⟩ := o
  cases r with
  | ok done => exact h.withStore hwf hmem
  | error error => exact h.withStore hwf hmem

lemma finish_insert (code : ℕ) {e : Experience}
    (hstatus : ¬ e.status.Privileged) :
    (server.finish code (server.store.insert e)).2.Qualified := by
  refine h.finish code (h.wf.insert e) fun other hother => ?_
  rcases mem_insert hother with hold | rfl
  · exact .inl hold
  · exact .inr fun hpriv => absurd hpriv hstatus

lemma create {body : RequestBody}
    (hop : ServerOp.KeepsQualified server (.create body)) : (server.create body).2.Qualified := by
  unfold Server.create
  cases hread : readExperience body with
  | error error => exact h
  | ok e => exact h.finish_insert 201 (hop e hread)

lemma delete (name : String) : (server.delete name).2.Qualified :=
  h.finish 200 (h.wf.remove name) fun _ hother => .inl (mem_remove hother)

lemma draft (name : String) : (server.draft name).2.Qualified := by
  unfold Server.draft
  split_ifs
  · exact h
  · cases server.store.get name with
    | none => exact h
    | some orig =>
      simp only
      split_ifs
      · exact h
      · exact h.finish_insert 201 (by simp [ExperienceStatus.Privileged])

lemma editBody (name : String) (body : RequestBody) :
    (server.editBody name body).2.Qualified := by
  unfold Server.editBody
  cases readExperience body with
  | error error => exact h
  | ok edited =>
    dsimp only
    cases validateEditableBody edited with
    | error error => exact h
    | ok done =>
      dsimp only
      cases hget : server.store.get name with
      | none => exact h
      | some e =>
        dsimp only
        split_ifs with hdraft
        · exact h
        · refine h.finish 200 (h.wf.replaceExisting name _) fun other hother => ?_
          rcases mem_replaceExisting h.wf hother with hold | ⟨old, hmem, hname, rfl⟩
          · exact .inl hold
          · right
            intro hpriv
            rw [h.wf.eq_of_get hget hmem hname, not_not.mp hdraft] at hpriv
            simp [ExperienceStatus.Privileged] at hpriv

/-- An adopted body is vouched for when it is the body that the original had. -/
lemma adopt {name : String}
    (hop : ServerOp.KeepsQualified server (.adopt name)) : (server.adopt name).2.Qualified := by
  unfold Server.adopt
  cases hstrip : stripEnd name "__draft" with
  | none => exact h
  | some originalName =>
    dsimp only
    cases hget : server.store.get name with
    | none => exact h
    | some draft =>
      dsimp only
      split_ifs
      · exact h
      · exact h
      · cases validateEditableBody draft with
        | error error => exact h
        | ok done =>
          dsimp only
          have hwf := h.wf.replaceExisting originalName { draft with name := originalName }
          have hmem : ∀ other ∈ (server.store.replaceExisting originalName
              { draft with name := originalName }).2.all,
              other ∈ server.store.all ∨ Vouched server.passed other := by
            intro other hother
            rcases mem_replaceExisting h.wf hother with hold | ⟨original, hold, hname, rfl⟩
            · exact .inl hold
            · right
              intro hpriv
              have horig : server.store.get originalName = some original :=
                (h.wf.experiences.lookup_eq_some_iff _ _).mpr ⟨hold, hname⟩
              have hbody := hop originalName original draft hstrip horig hget hpriv
              have hpassed := h.vouched original hold hpriv
              rw [hname, ← hbody] at hpassed
              exact hpassed
          rcases hreplace : server.store.replaceExisting originalName
              { draft with name := originalName } with ⟨r, s⟩
          rw [hreplace] at hwf hmem
          cases r with
          | error error => exact h.withStore hwf hmem
          | ok replaced =>
            exact h.finish 200 (hwf.remove name) fun other hother => hmem other (mem_remove hother)

end

lemma importItems_spec (passed : List (String × Body)) (pay : Json) (scope : Option String)
    (i : ℕ) (items : List Json) (s : ExperienceStore) (hwf : s.Wf)
    (hstatus : ∀ item ∈ items, ∀ experience, Codec.experience.decode item = .ok experience →
      ¬ experience.status.Privileged) :
    (importItems pay scope i items s).2.Wf ∧
      ∀ experience ∈ (importItems pay scope i items s).2.all,
        experience ∈ s.all ∨ Vouched passed experience := by
  induction items generalizing i s with
  | nil => exact ⟨hwf, fun _ hmem => .inl hmem⟩
  | cons item rest ih =>
    have hunchanged : s.Wf ∧ ∀ experience ∈ s.all,
        experience ∈ s.all ∨ Vouched passed experience := ⟨hwf, fun _ hmem => .inl hmem⟩
    rw [importItems]
    cases hdec : Codec.experience.decode item with
    | error error => exact hunchanged
    | ok experience =>
      dsimp only
      cases validateEditableBody experience with
      | error error => exact hunchanged
      | ok valid =>
        dsimp only
        have hplain := hstatus item List.mem_cons_self experience hdec
        have hins := hwf.insert experience
        have hmem : ∀ other ∈ (s.insert experience).2.all,
            other ∈ s.all ∨ Vouched passed other := fun other hother =>
          (mem_insert hother).imp id fun heq hpriv => absurd (heq ▸ hpriv) hplain
        rcases hinsert : s.insert experience with ⟨r, inserted⟩
        rw [hinsert] at hins hmem
        cases r with
        | error error => exact ⟨hins, hmem⟩
        | ok done =>
          dsimp only
          generalize scope.orElse (fun _ => payloadScope pay experience.name) = assigned
          obtain ⟨error, hscope⟩ | ⟨assignedStore, hscope, hsame⟩ :=
            StoreOp.metadata_outcome inserted (.setScope experience.name assigned)
          · simp only [StoreOp.perform] at hscope
            rw [hscope]
            exact ⟨hins, hmem⟩
          · simp only [StoreOp.perform] at hscope
            rw [hscope]
            have hall : assignedStore.all = inserted.all := congrArg Catalog.items hsame.1
            obtain ⟨hfinal, hstep⟩ := ih (i + 1) assignedStore
              (hins.of_collections_eq hsame.1 hsame.2)
              (List.forall_mem_of_forall_mem_cons hstatus)
            refine ⟨hfinal, fun other hother => ?_⟩
            rcases hstep other hother with hold | hvouched
            · exact hmem other (hall ▸ hold)
            · exact .inr hvouched

lemma importExperiences (h : server.Qualified) {body : RequestBody}
    (hop : ServerOp.KeepsQualified server (.importExperiences body)) :
    (server.importExperiences body).2.Qualified := by
  unfold Server.importExperiences
  cases body with
  | error error => exact h
  | ok value =>
    dsimp only
    split_ifs
    · exact h
    · cases hpayload : value.get "payload" with
      | none => exact h
      | some pay =>
        dsimp only
        cases hitems : payloadItems pay with
        | none => exact h
        | some items =>
          obtain ⟨hwf, hmem⟩ := importItems_spec server.passed pay
            ((value.get "scope").bind Json.asStr) 0 items server.store h.wf
            (hop value pay items rfl hpayload hitems)
          dsimp only
          rcases himport : importItems pay ((value.get "scope").bind Json.asStr) 0 items
              server.store with ⟨r, s⟩
          rw [himport] at hwf hmem
          cases r with
          | error error => exact h.withStore hwf hmem
          | ok done => exact h.withStore hwf hmem

/-- A change of status keeps the vouchers when the experience is vouched for under the new one. -/
lemma finish_transition (h : server.Qualified) (name : String) (action : QualificationAction)
    (hvouched : ∀ e ∈ server.store.all, e.name = name →
      ∀ next, e.status.transition action = .ok next → next.Privileged →
        (e.name, e.body) ∈ server.passed) :
    (server.finish 200
      (StoreOp.discard (server.store.transitionStatus name action))).2.Qualified := by
  refine h.finish 200 (h.wf.transitionStatus name action) fun other hother => ?_
  rcases mem_transitionStatus h.wf hother with hold | ⟨e, hmem, hname, next, htrans, rfl⟩
  · exact .inl hold
  · exact .inr fun hpriv => hvouched e hmem hname next htrans hpriv

section
variable (h : server.Qualified)
include h

lemma applyStatus (name : String) (cur : ExperienceStatus)
    (action : QualificationAction)
    (hvouched : ∀ e ∈ server.store.all, e.name = name →
      ∀ next, e.status.transition action = .ok next → next.Privileged →
        (e.name, e.body) ∈ server.passed) :
    (server.applyStatus name cur action).2.Qualified := by
  unfold Server.applyStatus
  split_ifs
  · exact h
  · exact h
  · exact h.finish_transition name action hvouched

/-- A status change that does not qualify relies on the vouchers there are. -/
lemma vouched_of_ungated (name : String) {action : QualificationAction}
    (hgate : action ≠ .validate ∧ action ≠ .revalidate) :
    ∀ e ∈ server.store.all, e.name = name →
      ∀ next, e.status.transition action = .ok next → next.Privileged →
        (e.name, e.body) ∈ server.passed := by
  intro e hmem _ next htrans hnext
  refine h.vouched e hmem ?_
  obtain rfl | rfl := hnext <;> cases action <;> cases hstatus : e.status <;>
    simp_all [ExperienceStatus.transition, ExperienceStatus.Privileged]

lemma changeStatus (name : String) (body : RequestBody)
    (scratch : Scratch) : (server.changeStatus name body scratch).2.Qualified := by
  unfold Server.changeStatus
  cases body with
  | error error => exact h
  | ok value =>
    dsimp only
    cases ((value.get "status").orElse fun _ => value.get "action").bind Json.asStr with
    | none => exact h
    | some verb =>
      dsimp only
      cases statusAction verb with
      | none => exact h
      | some action =>
        dsimp only
        split_ifs with hforce hgate
        · exact h
        · cases hget : server.store.get name with
          | none => exact h
          | some e =>
            dsimp only
            cases qualify scratch resolveDefaultSource e with
            | error stop =>
              cases stop with
              | issues problems => exact h
              | unreachableTool tool => exact ⟨h.wf, h.vouched⟩
            | ok passed =>
              have hpassed : Server.Qualified
                  { server with passed := server.passed ++ [(name, e.body)] } :=
                ⟨h.wf, fun e hmem hpriv => List.mem_append_left _ (h.vouched e hmem hpriv)⟩
              refine hpassed.applyStatus name _ action ?_
              intro other hmem hname next _ _
              rw [hname, h.wf.eq_of_get hget hmem hname]
              exact List.mem_append_right _ (List.mem_singleton_self _)
        · cases server.store.get name with
          | none => exact h
          | some e =>
            exact h.applyStatus name _ action (h.vouched_of_ungated name (not_or.mp hgate))

lemma autoDecay (name : String) : (server.autoDecay name).2.Qualified := by
  unfold Server.autoDecay
  split_ifs
  · exact h
  · cases server.store.get name with
    | none => exact h
    | some e =>
      dsimp only
      split_ifs
      · exact h
      · exact h.finish_transition name .decay
          (h.vouched_of_ungated name ⟨nofun, nofun⟩)

/-- Every operation that meets the condition keeps all privileged experiences vouched for. -/
theorem next {op : ServerOp} (hop : ServerOp.KeepsQualified server op) :
    (ServerOp.next server op).Qualified := by
  unfold ServerOp.next ServerOp.perform
  split_ifs
  · exact h
  · cases op with
    | create body => exact h.create hop
    | delete name => exact h.delete name
    | draft name => exact h.draft name
    | editBody name body => exact h.editBody name body
    | adopt name => exact h.adopt hop
    | importExperiences body => exact h.importExperiences hop
    | changeStatus name body scratch => exact h.changeStatus name body scratch
    | autoDecay name => exact h.autoDecay name

end

end Server.Qualified

/-- Every active experience has passed the qualification, earlier in the run, with the body it
has now. -/
def Server.ActiveQualified (server : Server) : Prop :=
  ∀ experience ∈ server.store.all, experience.status = .active →
    (experience.name, experience.body) ∈ server.passed

/-- An experience that reads a file. -/
def readNote (status : ExperienceStatus) (postcondition : String) : Experience where
  name := "note"
  trigger := { tool := "task", commandPattern := none }
  preconditions := []
  workflow := [{ action := "read_file", args := .object [("path", .string "note.txt")] }]
  postconditions := [{ key := postcondition, expected := .bool true }]
  verification := []
  failurePolicy := .stopAndReport
  undo := .unsupported
  status := status

/-- An import request with one active experience whose completion criterion is the placeholder. -/
def importActive : Json :=
  .object [("scope", .null), ("payload",
    .array [Codec.experience.encode (readNote .active "candidate.pending_validation")])]

/-- A candidate is created, validated and activated. -/
def activateNote : List ServerOp :=
  let scratch : Scratch := { create := .ok (), roundTrip := .ok }
  [.create (.ok (Codec.experience.encode (readNote .candidate "file:note.txt.exists"))),
    .changeStatus "note" (.ok (.object [("status", .string "validate")])) scratch,
    .changeStatus "note" (.ok (.object [("status", .string "active")])) scratch]

@[simp] lemma Server.passed_finish (server : Server) (code : ℕ)
    (o : Except StoreError Unit × ExperienceStore) :
    (server.finish code o).2.passed = server.passed := by
  obtain ⟨r, s⟩ := o
  cases r <;> rfl

@[simp] lemma Server.passed_applyStatus (server : Server) (name : String)
    (cur : ExperienceStatus) (action : QualificationAction) :
    (server.applyStatus name cur action).2.passed = server.passed := by
  unfold Server.applyStatus
  split_ifs <;> simp

/-- What is noted as passed passes the qualification. -/
def Server.PassedPass (server : Server) : Prop :=
  ∀ entry ∈ server.passed, ∃ scratch e, entry.2 = Experience.body e ∧
    qualify scratch resolveDefaultSource e = .ok ()

lemma Server.PassedPass.next {server : Server} (h : server.PassedPass) (op : ServerOp) :
    (ServerOp.next server op).PassedPass := by
  unfold ServerOp.next ServerOp.perform
  unfold PassedPass at h ⊢
  split_ifs
  · exact h
  cases op with
  | changeStatus name body scratch =>
    dsimp only [Server.changeStatus]
    repeat' split
    case h_3 e _ _ _ hpass =>
      simp only [passed_applyStatus]
      exact List.forall_mem_append.mpr
        ⟨h, List.forall_mem_singleton.mpr ⟨scratch, e, rfl, hpass⟩⟩
    all_goals simpa only [passed_applyStatus] using h
  | create | delete | draft | editBody | adopt | importExperiences | autoDecay =>
    dsimp only [Server.create, Server.delete, Server.draft, Server.editBody, Server.adopt,
      Server.importExperiences, Server.autoDecay, Server.withStore]
    repeat' split
    all_goals simpa only [passed_finish] using h

end ExperienceCodex

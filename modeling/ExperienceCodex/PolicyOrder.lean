import ExperienceCodex.ExecNarrowing

/-!
# The order of policies

A policy permits uses: to call an action, to read some bytes inside or outside the workspace, to
run a program, to reach a host.  One policy is within another if it permits nothing that the other
forbids.  The check of a session request, `requestWithin`, and the merge of one, `narrow`, are
compared with this order.
-/

namespace ExperienceCodex

open Text

/-- What a policy may permit. -/
inductive Use where
  | call (action : String)
  | read (inside : Bool) (bytes : UInt64)
  | run (legacy : Bool) (program : String) (seconds outputBytes : UInt64)
  | reach (host : String)

namespace CapabilityPolicy

/-- The program passes the executor's list, which an empty list leaves open. -/
def Lists (policy : CapabilityPolicy) (program : String) : Prop :=
  policy.exec.allow = [] ∨ ∃ entry ∈ policy.exec.allow, programStem entry = programStem program

/-- The uses that the policy permits where its fields are enforced. -/
def Permits (policy : CapabilityPolicy) : Use → Prop
  | .call action => policy.allows action = true
  | .read inside bytes =>
    policy.fsRead.enabled = true ∧ (policy.fsRead.workspaceOnly = true → inside = true) ∧
      bytes ≤ policy.readMaxBytes
  | .run legacy program seconds outputBytes =>
    policy.exec.mode = execAllowlist ∧ policy.Lists program ∧
      (legacy = true → policy.exec.allowLegacyShell = true) ∧
      seconds ≤ policy.exec.timeoutSecs ∧ outputBytes ≤ policy.exec.outputCap
  | .reach host => policy.network.mode = networkAllowlist ∧ host ∈ policy.network.allow

/-- The actions that change files without deleting any. -/
def writeActions : List String :=
  ["write_file", "append_file", "mkdir", "copy_file", "move_file"]

theorem allows_iff (pol : CapabilityPolicy) (action : String) :
    pol.allows action = true ↔
      (action ∈ writeActions ∧ pol.fsWrite ≠ fsWriteDeny) ∨
        (action = "delete_file" ∧ pol.fsDelete = fsWriteWorkspaceOnly) ∨
        (action = "read_file" ∧ pol.fsRead.enabled = true) ∨
        ((action = "exec" ∨ action = "exec_command") ∧ pol.exec.mode = execAllowlist) := by
  have hwrite : (action = "write_file" ∨ action = "append_file" ∨ action = "mkdir" ∨
      action = "copy_file" ∨ action = "move_file") ↔ action ∈ writeActions := by
    simp [writeActions]
  unfold allows check
  simp only [hwrite]
  by_cases hw : action ∈ writeActions
  · have hdel : action ≠ "delete_file" := fun h => absurd (h ▸ hw) (by decide)
    have hread : action ≠ "read_file" := fun h => absurd (h ▸ hw) (by decide)
    have hexec : action ≠ "exec" := fun h => absurd (h ▸ hw) (by decide)
    have hcommand : action ≠ "exec_command" := fun h => absurd (h ▸ hw) (by decide)
    by_cases hdeny : pol.fsWrite = fsWriteDeny
    · simp [hw, hdeny, hdel, hread, hexec, hcommand, Except.isOk, Except.toBool]
    · simp [hw, hdeny, Except.isOk, Except.toBool]
  · simp only [hw, if_false, false_and, false_or]
    by_cases hdel : action = "delete_file"
    · by_cases hmode : pol.fsDelete = fsWriteWorkspaceOnly
      · simp [hdel, hmode, Except.isOk, Except.toBool]
      · simp [hdel, hmode, Except.isOk, Except.toBool]
    · simp only [hdel, if_false, false_and, false_or]
      by_cases hread : action = "read_file"
      · cases henabled : pol.fsRead.enabled with
        | true => simp [hread, Except.isOk, Except.toBool]
        | false => simp [hread, Except.isOk, Except.toBool]
      · simp only [hread, if_false, false_and, false_or]
        by_cases hexec : action = "exec" ∨ action = "exec_command"
        · by_cases hmode : pol.exec.mode = execAllowlist
          · simp [hexec, hmode, Except.isOk, Except.toBool]
          · simp [hexec, hmode, Except.isOk, Except.toBool]
        · simp [hexec, Except.isOk, Except.toBool]

/-- The actions follow from the four fields that decide them. -/
theorem allows_of_families {small large : CapabilityPolicy}
    (hwrite : small.fsWrite ≠ fsWriteDeny → large.fsWrite ≠ fsWriteDeny)
    (hdel : small.fsDelete = fsWriteWorkspaceOnly → large.fsDelete = fsWriteWorkspaceOnly)
    (hread : small.fsRead.enabled = true → large.fsRead.enabled = true)
    (hexec : small.exec.mode = execAllowlist → large.exec.mode = execAllowlist) (action : String)
    (h : small.allows action = true) : large.allows action = true := by
  rw [allows_iff] at h ⊢
  rcases h with ⟨hact, h⟩ | ⟨hact, h⟩ | ⟨hact, h⟩ | ⟨hact, h⟩
  · exact .inl ⟨hact, hwrite h⟩
  · exact .inr (.inl ⟨hact, hdel h⟩)
  · exact .inr (.inr (.inl ⟨hact, hread h⟩))
  · exact .inr (.inr (.inr ⟨hact, hexec h⟩))

/-- A policy with an open list is within another only if that list is open as well: there are
more programs than a list names. -/
theorem allow_eq_nil_of_lists {small large : CapabilityPolicy} (hopen : small.exec.allow = [])
    (h : ∀ program, small.Lists program → large.Lists program) : large.exec.allow = [] := by
  obtain ⟨length, hfresh⟩ := exists_unlisted_plainProgram large.exec.allow
  rcases h (plainProgram length) (.inl hopen) with hnil | ⟨e, hentry, hstem⟩
  · exact hnil
  · rw [programStem_plainProgram] at hstem
    exact absurd hstem (hfresh e hentry)

variable (base requested : CapabilityPolicy)

theorem requestWithin_eq_true_iff :
    requestWithin base requested = true ↔
      requested.readMaxBytes ≤ base.readMaxBytes ∧
      (requested.fsWrite ≠ fsWriteDeny → base.fsWrite ≠ fsWriteDeny) ∧
      (requested.fsDelete = fsWriteWorkspaceOnly → base.fsDelete = fsWriteWorkspaceOnly) ∧
      (requested.exec.mode = execAllowlist → base.exec.mode = execAllowlist ∧
        requested.exec.allow ⊆ base.exec.allow ∧
        (requested.exec.allowLegacyShell = true → base.exec.allowLegacyShell = true) ∧
        requested.exec.timeoutSecs ≤ base.exec.timeoutSecs ∧
        requested.exec.outputCap ≤ base.exec.outputCap) ∧
      (requested.network.mode = networkAllowlist → base.network.mode = networkAllowlist ∧
        requested.network.allow ⊆ base.network.allow) := by
  have hall (left right : List String) :
      (left.all fun value => right.any fun other => other == value) = true ↔ left ⊆ right := by
    simp [List.all_eq_true, List.any_eq_true, List.subset_def]
  unfold requestWithin
  simp only [gt_iff_lt, Bool.not_eq_true', ← Bool.not_eq_true, hall]
  split_ifs with hread hwrite hdel hexec hnetwork
  · simp [UInt64.not_le.mpr hread]
  · simp [hwrite]
  · simp [hdel]
  · simp only [false_iff]
    rintro ⟨-, -, -, h, -⟩
    obtain ⟨hmode, hsub, hlegacy, htimeout, houtput⟩ := h hexec.1
    rcases hexec.2 with h | h | ⟨hasked, h⟩ | h | h
    · exact h hmode
    · exact h hsub
    · exact h (hlegacy hasked)
    · exact UInt64.not_le.mpr h htimeout
    · exact UInt64.not_le.mpr h houtput
  · simp only [false_iff]
    rintro ⟨-, -, -, -, h⟩
    obtain ⟨hmode, hsub⟩ := h hnetwork.1
    rcases hnetwork.2 with h | h
    · exact h hmode
    · exact h hsub
  · simp only [true_iff]
    refine ⟨UInt64.not_lt.mp hread, fun h hdeny => hwrite ⟨h, hdeny⟩, fun h => ?_, fun h => ?_,
      fun h => ?_⟩
    · by_contra hother
      exact hdel ⟨h, hother⟩
    · have hnone := not_and.mp hexec h
      simp only [not_or, not_not, not_and, UInt64.not_lt] at hnone
      exact ⟨hnone.1, hnone.2.1, hnone.2.2.1, hnone.2.2.2.1, hnone.2.2.2.2⟩
    · have hnone := not_and.mp hnetwork h
      simp only [not_or, not_not] at hnone
      exact hnone

/-- What a request within the base may still permit beyond it: the check looks neither at the
switch nor at the containment of reads, and an empty list passes it. -/
theorem requestWithin_subset_iff {base requested : CapabilityPolicy}
    (h : requestWithin base requested = true) :
    (∀ use, requested.Permits use → base.Permits use) ↔
      (requested.fsRead.enabled = true → base.fsRead.enabled = true) ∧
      (requested.fsRead.enabled = true → base.fsRead.workspaceOnly = true →
        requested.fsRead.workspaceOnly = true) ∧
      (requested.exec.mode = execAllowlist → requested.exec.allow = [] →
        base.exec.allow = []) := by
  obtain ⟨hcap, hwrite, hdelete, hexec, hnetwork⟩ := (requestWithin_eq_true_iff ..).mp h
  constructor
  · intro hwithin
    refine ⟨fun henabled => ?_, fun henabled hbase => ?_, fun hmode hopen => ?_⟩
    · exact (hwithin (.read true 0) ⟨henabled, fun _ => rfl, UInt64.zero_le⟩).1
    · by_contra hfree
      have houtside := hwithin (.read false 0)
        ⟨henabled, fun hinside => absurd hinside hfree, UInt64.zero_le⟩
      exact absurd (houtside.2.1 hbase) (by simp)
    · refine allow_eq_nil_of_lists hopen fun program hlisted => ?_
      have hrun := hwithin (.run false program 0 0)
        ⟨hmode, hlisted, nofun, UInt64.zero_le, UInt64.zero_le⟩
      exact hrun.2.1
  · rintro ⟨henabled, hinside, hopen⟩ use hpermits
    cases use with
    | call action =>
      exact allows_of_families hwrite hdelete henabled (fun hmode => (hexec hmode).1) action
        hpermits
    | read inside bytes =>
      obtain ⟨hon, hcontained, hbytes⟩ := hpermits
      exact ⟨henabled hon, fun hbase => hcontained (hinside hon hbase), UInt64.le_trans hbytes hcap⟩
    | run legacy program seconds outputBytes =>
      obtain ⟨hmode, hlisted, hlegacy, hseconds, hbytes⟩ := hpermits
      obtain ⟨hbase, hsub, hshell, htimeout, houtput⟩ := hexec hmode
      refine ⟨hbase, ?_, fun hasked => hshell (hlegacy hasked), UInt64.le_trans hseconds htimeout,
        UInt64.le_trans hbytes houtput⟩
      rcases hlisted with hnil | ⟨entry, hentry, hstem⟩
      · exact .inl (hopen hmode hnil)
      · exact .inr ⟨entry, hsub hentry, hstem⟩
    | reach host =>
      obtain ⟨hmode, hhost⟩ := hpermits
      obtain ⟨hbase, hsub⟩ := hnetwork hmode
      exact ⟨hbase, hsub hhost⟩

/-- A request that is narrower in every family: contained and shorter reads, no deletions, fewer
programs and hosts, lower caps. -/
theorem requestWithin_subset_narrower :
    let base : CapabilityPolicy :=
      { fsRead := { workspaceOnly := false, maxBytes := 65536 }
        fsDelete := fsWriteWorkspaceOnly
        exec :=
          { mode := execAllowlist, allow := ["cargo", "git"], timeoutSecs := 120,
            outputCap := 40000, allowLegacyShell := true }
        network := { mode := networkAllowlist, allow := ["crates.io", "docs.rs"] } }
    let requested : CapabilityPolicy :=
      { fsRead := { maxBytes := 4096 }
        exec := { mode := execAllowlist, allow := ["git"], timeoutSecs := 30, outputCap := 1000 }
        network := { mode := networkAllowlist, allow := ["docs.rs"] } }
    requestWithin base requested = true ∧ requestWithin requested base = false ∧
      ∀ use, requested.Permits use → base.Permits use :=
  ⟨by decide, by decide, (requestWithin_subset_iff (by decide)).mpr (by decide)⟩

/-- A base without reads takes the default request for a subset, which reads. -/
theorem requestWithin_turns_reads_on :
    let base : CapabilityPolicy := { fsRead := { enabled := false } }
    requestWithin base {} = true ∧ ({} : CapabilityPolicy).allows "read_file" = true ∧
      base.allows "read_file" = false := by
  decide

/-- The maximum of machine words, written out for the lemmas about caps. -/
theorem max_word_eq_ite (left right : UInt64) :
    max left right = if left ≤ right then right else left := rfl

theorem effectiveMaxBytes_le (pol : FsReadPolicy) :
    pol.effectiveMaxBytes ≤ maxSpecialGrantBytes := by
  unfold FsReadPolicy.effectiveMaxBytes
  cases pol.specialGrantBytes with
  | none =>
    simp only [Option.map_none, Option.getD_none, max_word_eq_ite, Std.min_eq_if,
      maxSpecialGrantBytes]
    grind
  | some value =>
    simp only [Option.map_some, Option.getD_some, max_word_eq_ite, Std.min_eq_if]
    grind

/-- A cap without a grant is effective up to the largest grant. -/
theorem effectiveMaxBytes_of_no_grant (enabled workspaceOnly : Bool) {bytes : UInt64}
    (h : bytes ≤ maxSpecialGrantBytes) :
    ({ enabled, workspaceOnly, maxBytes := bytes, specialGrantBytes := none } :
      FsReadPolicy).effectiveMaxBytes = bytes := by
  simp only [FsReadPolicy.effectiveMaxBytes, Option.map_none, Option.getD_none, Std.min_eq_if,
    if_pos h, max_word_eq_ite]
  split_ifs with hzero
  · exact UInt64.le_antisymm UInt64.zero_le hzero
  · rfl

/-- The narrowed reads: the switches of the base and its cap, unless the request's is lower. -/
theorem narrowFsRead_eq :
    base.narrowFsRead requested =
      { enabled := base.fsRead.enabled && requested.fsRead.enabled
        workspaceOnly := base.fsRead.workspaceOnly || !requested.fsRead.workspaceOnly
        maxBytes := if requested.readMaxBytes < base.readMaxBytes then requested.readMaxBytes
          else base.fsRead.maxBytes
        specialGrantBytes := if requested.readMaxBytes < base.readMaxBytes then none
          else base.fsRead.specialGrantBytes } := by
  unfold narrowFsRead readMaxBytes
  -- neither switch is read by the cap, so that all four cases compare the same two caps
  cases requested.fsRead.enabled <;> cases requested.fsRead.workspaceOnly <;>
    (show (if requested.fsRead.effectiveMaxBytes < base.fsRead.effectiveMaxBytes then _
      else _) = _
     by_cases hlower : requested.fsRead.effectiveMaxBytes < base.fsRead.effectiveMaxBytes
     · simp [hlower]
     · simp [hlower])

theorem narrow_fsRead_enabled :
    (base.narrow requested).fsRead.enabled =
      (base.fsRead.enabled && requested.fsRead.enabled) := by
  rw [narrow, narrowFsRead_eq]

/-- A request for more containment leaves the base as it is, and one for less turns it on. -/
theorem narrow_fsRead_workspaceOnly :
    (base.narrow requested).fsRead.workspaceOnly =
      (base.fsRead.workspaceOnly || !requested.fsRead.workspaceOnly) := by
  rw [narrow, narrowFsRead_eq]

theorem readMaxBytes_narrow :
    (base.narrow requested).readMaxBytes = min base.readMaxBytes requested.readMaxBytes := by
  rw [readMaxBytes, narrow, narrowFsRead_eq, Std.min_eq_if]
  by_cases hlower : requested.readMaxBytes < base.readMaxBytes
  · simp only [if_pos hlower, if_neg (UInt64.not_le.mpr hlower)]
    exact effectiveMaxBytes_of_no_grant _ _ (effectiveMaxBytes_le _)
  · simp only [if_neg hlower, if_pos (UInt64.not_lt.mp hlower)]
    rfl

theorem narrow_fsWrite_iff :
    (base.narrow requested).fsWrite ≠ fsWriteDeny ↔
      base.fsWrite ≠ fsWriteDeny ∧ requested.fsWrite ≠ fsWriteDeny := by
  by_cases h : requested.fsWrite = fsWriteDeny <;> simp [narrow, h]

theorem narrow_fsDelete_iff :
    (base.narrow requested).fsDelete = fsWriteWorkspaceOnly ↔
      base.fsDelete = fsWriteWorkspaceOnly ∧ requested.fsDelete = fsWriteWorkspaceOnly := by
  by_cases h : requested.fsDelete = fsWriteWorkspaceOnly
  · simp [narrow, h]
  · have hdeny : fsWriteDeny ≠ fsWriteWorkspaceOnly := by decide
    simp [narrow, h, hdeny]

theorem narrow_exec_mode_iff :
    (base.narrow requested).exec.mode = execAllowlist ↔
      base.exec.mode = execAllowlist ∧ requested.exec.mode = execAllowlist := by
  constructor
  · intro h
    obtain ⟨hbase, hreq, -⟩ := narrow_exec_of_allowlist h
    exact ⟨hbase, hreq⟩
  · rintro ⟨hbase, hreq⟩
    exact narrow_exec_mode hbase hreq

/-- The narrowed exec policy for a request with an allowlist. -/
theorem narrow_exec_eq {requested : CapabilityPolicy} (base : CapabilityPolicy)
    (h : requested.exec.mode = execAllowlist) :
    (base.narrow requested).exec =
      { base.exec with
        allow := intersection base.exec.allow requested.exec.allow
        timeoutSecs := min base.exec.timeoutSecs requested.exec.timeoutSecs
        outputCap := min base.exec.outputCap requested.exec.outputCap
        allowLegacyShell := base.exec.allowLegacyShell && requested.exec.allowLegacyShell } := by
  simp [narrow, narrowExec, h]

theorem narrow_network_mode_iff :
    (base.narrow requested).network.mode = networkAllowlist ↔
      base.network.mode = networkAllowlist ∧ requested.network.mode = networkAllowlist := by
  simp only [narrow, narrowNetwork]
  by_cases hreq : requested.network.mode = networkAllowlist
  · simp [hreq]
  · by_cases hbase : base.network.mode = networkAllowlist
    · have hoff : networkOff ≠ networkAllowlist := by decide
      simp [hreq, hbase, hoff]
    · simp [hreq, hbase]

theorem narrow_network_eq {requested : CapabilityPolicy} (base : CapabilityPolicy)
    (h : requested.network.mode = networkAllowlist) :
    (base.narrow requested).network =
      { base.network with
        allow := intersection base.network.allow requested.network.allow } := by
  simp [narrow, narrowNetwork, h]

theorem allows_narrow_iff (action : String) :
    (base.narrow requested).allows action = true ↔
      base.allows action = true ∧ requested.allows action = true := by
  have henabled : (base.narrow requested).fsRead.enabled = true ↔
      base.fsRead.enabled = true ∧ requested.fsRead.enabled = true := by
    rw [narrow_fsRead_enabled, Bool.and_eq_true]
  constructor
  · intro h
    refine ⟨?_, ?_⟩
    · refine allows_of_families (fun h => ?_) (fun h => ?_) (fun h => ?_) (fun h => ?_) action h
      · exact ((narrow_fsWrite_iff ..).mp h).1
      · exact ((narrow_fsDelete_iff ..).mp h).1
      · exact (henabled.mp h).1
      · exact ((narrow_exec_mode_iff ..).mp h).1
    · refine allows_of_families (fun h => ?_) (fun h => ?_) (fun h => ?_) (fun h => ?_) action h
      · exact ((narrow_fsWrite_iff ..).mp h).2
      · exact ((narrow_fsDelete_iff ..).mp h).2
      · exact (henabled.mp h).2
      · exact ((narrow_exec_mode_iff ..).mp h).2
  · rintro ⟨hbase, hreq⟩
    rw [allows_iff] at hbase hreq ⊢
    rw [narrow_fsWrite_iff, narrow_fsDelete_iff, henabled, narrow_exec_mode_iff]
    -- the four families have no action in common
    have hwrite : ∀ name ∈ writeActions, name ≠ "delete_file" ∧ name ≠ "read_file" ∧
        name ≠ "exec" ∧ name ≠ "exec_command" := by decide
    grind

theorem intersection_intersection_right (left right : List String) :
    intersection (intersection left right) right = intersection left right := by
  apply intersection_eq_of_mem_iff
  intro e
  rw [mem_intersection_iff]
  tauto

theorem intersection_right_comm (list left right : List String) :
    intersection (intersection list left) right = intersection (intersection list right) left := by
  apply intersection_eq_of_mem_iff
  intro e
  rw [mem_intersection_iff, mem_intersection_iff]
  tauto

theorem min_word_min_right (left right : UInt64) :
    min (min left right) right = min left right := by
  simp only [Std.min_eq_if]
  grind

theorem narrowFsRead_narrow_self :
    (base.narrow requested).narrowFsRead requested = base.narrowFsRead requested := by
  have hcap : ¬ requested.readMaxBytes < (base.narrow requested).readMaxBytes := by
    rw [readMaxBytes_narrow, UInt64.not_lt]
    exact Std.min_le_right
  rw [narrowFsRead_eq, if_neg hcap, if_neg hcap]
  simp only [narrow, narrowFsRead_eq, Bool.and_assoc, Bool.and_self, Bool.or_assoc, Bool.or_self]

theorem narrowExec_narrow_self :
    (base.narrow requested).narrowExec requested = base.narrowExec requested := by
  have honce : (base.narrow requested).exec = base.narrowExec requested := rfl
  by_cases hreq : requested.exec.mode = execAllowlist
  · rw [← honce, narrow_exec_eq base hreq]
    simp only [narrowExec, honce, hreq, ne_eq, not_true_eq_false, false_and, if_false, if_true,
      intersection_intersection_right, min_word_min_right, Bool.and_assoc, Bool.and_self]
  · -- exec is off after the first merge, and the second one leaves it so
    have hoff : (base.narrow requested).exec.mode ≠ execAllowlist := by
      intro h
      exact hreq ((narrow_exec_mode_iff ..).mp h).2
    simp only [narrowExec, hreq, hoff, and_false, if_false]
    exact honce.trans (by simp only [narrowExec, hreq, if_false])

theorem narrowNetwork_narrow_self :
    (base.narrow requested).narrowNetwork requested = base.narrowNetwork requested := by
  have honce : (base.narrow requested).network = base.narrowNetwork requested := rfl
  by_cases hreq : requested.network.mode = networkAllowlist
  · rw [← honce, narrow_network_eq base hreq]
    simp only [narrowNetwork, honce, hreq, ne_eq, not_true_eq_false, false_and, if_false, if_true,
      intersection_intersection_right]
  · have hoff : (base.narrow requested).network.mode ≠ networkAllowlist := by
      intro h
      exact hreq ((narrow_network_mode_iff ..).mp h).2
    simp only [narrowNetwork, hreq, hoff, and_false, if_false]
    exact honce.trans (by simp only [narrowNetwork, hreq, if_false])

/-- Merging a request twice is merging it once. -/
theorem narrow_narrow_self :
    (base.narrow requested).narrow requested = base.narrow requested := by
  have hwrite : (if requested.fsWrite = fsWriteDeny then fsWriteDeny
      else (base.narrow requested).fsWrite) = (base.narrow requested).fsWrite := by
    by_cases h : requested.fsWrite = fsWriteDeny <;> simp [narrow, h]
  have hdel : (if requested.fsDelete ≠ fsWriteWorkspaceOnly then fsWriteDeny
      else (base.narrow requested).fsDelete) = (base.narrow requested).fsDelete := by
    by_cases h : requested.fsDelete = fsWriteWorkspaceOnly <;> simp [narrow, h]
  rw [narrow, narrowFsRead_narrow_self, narrowExec_narrow_self, narrowNetwork_narrow_self, hwrite,
    hdel]
  rfl

theorem permits_read_narrow_iff (inside : Bool)
    (bytes : UInt64) :
    (base.narrow requested).Permits (.read inside bytes) ↔
      (base.fsRead.enabled = true ∧ requested.fsRead.enabled = true) ∧
      (base.fsRead.workspaceOnly = true ∨ requested.fsRead.workspaceOnly = false →
        inside = true) ∧
      bytes ≤ base.readMaxBytes ∧ bytes ≤ requested.readMaxBytes := by
  simp only [Permits, readMaxBytes_narrow, Std.le_min_iff, narrow_fsRead_enabled,
    narrow_fsRead_workspaceOnly, Bool.and_eq_true, Bool.or_eq_true, Bool.not_eq_true']

theorem permits_run_narrow_iff (legacy : Bool)
    (program : String) (seconds outputBytes : UInt64) :
    (base.narrow requested).Permits (.run legacy program seconds outputBytes) ↔
      (base.exec.mode = execAllowlist ∧ requested.exec.mode = execAllowlist) ∧
      (base.narrow requested).Lists program ∧
      (legacy = true → base.exec.allowLegacyShell = true ∧
        requested.exec.allowLegacyShell = true) ∧
      (seconds ≤ base.exec.timeoutSecs ∧ seconds ≤ requested.exec.timeoutSecs) ∧
      outputBytes ≤ base.exec.outputCap ∧ outputBytes ≤ requested.exec.outputCap := by
  rw [Permits, narrow_exec_mode_iff]
  apply and_congr_right
  rintro ⟨-, hreq⟩
  rw [narrow_exec_eq base hreq, Std.le_min_iff, Std.le_min_iff, Bool.and_eq_true]

theorem permits_reach_narrow_iff (host : String) :
    (base.narrow requested).Permits (.reach host) ↔
      base.Permits (.reach host) ∧ requested.Permits (.reach host) := by
  simp only [Permits, narrow_network_mode_iff]
  constructor
  · rintro ⟨⟨hbase, hreq⟩, hhost⟩
    rw [narrow_network_eq base hreq, mem_intersection_iff] at hhost
    exact ⟨⟨hbase, hhost.1⟩, hreq, hhost.2⟩
  · rintro ⟨⟨hbase, hleft⟩, hreq, hright⟩
    rw [narrow_network_eq base hreq, mem_intersection_iff]
    exact ⟨⟨hbase, hreq⟩, hleft, hright⟩

/-- What is left after two requests permits what is left after them in the other order; one
direction, as the two orders are named alike. -/
theorem permits_narrow_swap {base first second : CapabilityPolicy} {use : Use}
    (h : ((base.narrow first).narrow second).Permits use) :
    ((base.narrow second).narrow first).Permits use := by
  cases use with
  | call action =>
    simp only [Permits, allows_narrow_iff] at h ⊢
    exact ⟨⟨h.1.1, h.2⟩, h.1.2⟩
  | read inside bytes =>
    rw [permits_read_narrow_iff] at h ⊢
    simp only [readMaxBytes_narrow, Std.le_min_iff, narrow_fsRead_enabled,
      narrow_fsRead_workspaceOnly, Bool.and_eq_true, Bool.or_eq_true, Bool.not_eq_true'] at h ⊢
    obtain ⟨⟨⟨hbase, hfst⟩, hsnd⟩, hinside, ⟨hcap, hcapFirst⟩, hcapSecond⟩ := h
    refine ⟨⟨⟨hbase, hsnd⟩, hfst⟩, fun hcontd => hinside ?_, ⟨hcap, hcapSecond⟩,
      hcapFirst⟩
    tauto
  | run legacy program seconds outputBytes =>
    rw [permits_run_narrow_iff] at h ⊢
    obtain ⟨⟨hnarrowed, hsnd⟩, hlisted, hlegacy, hseconds, hbytes⟩ := h
    obtain ⟨hbase, hfst⟩ := (narrow_exec_mode_iff ..).mp hnarrowed
    rw [Lists, narrow_exec_eq _ hsnd, narrow_exec_eq _ hfst] at hlisted
    rw [narrow_exec_eq _ hfst] at hlegacy hseconds hbytes
    rw [Lists, narrow_exec_eq _ hfst, narrow_exec_eq _ hsnd]
    simp only [Std.le_min_iff, Bool.and_eq_true] at hlegacy hseconds hbytes ⊢
    rw [intersection_right_comm]
    refine ⟨⟨hbase, hfst⟩, hlisted, fun hasked => ?_, ?_, ?_⟩
    · obtain ⟨⟨hb, hf⟩, hs⟩ := hlegacy hasked
      exact ⟨⟨hb, hs⟩, hf⟩
    · exact ⟨⟨hseconds.1.1, hseconds.2⟩, hseconds.1.2⟩
    · exact ⟨⟨hbytes.1.1, hbytes.2⟩, hbytes.1.2⟩
  | reach host =>
    rw [permits_reach_narrow_iff, permits_reach_narrow_iff] at h ⊢
    exact ⟨⟨h.1.1, h.2⟩, h.1.2⟩

/-- The narrowed policy permits nothing that one of the two forbids; its read cap is the lower
one, and it contains reads if one of them does. -/
structure NarrowsToMeet (base requested : CapabilityPolicy) : Prop where
  permits : ∀ use, (base.narrow requested).Permits use →
    base.Permits use ∧ requested.Permits use
  readCap : (base.narrow requested).readMaxBytes = min base.readMaxBytes requested.readMaxBytes
  containment : base.fsRead.workspaceOnly = true ∨ requested.fsRead.workspaceOnly = true →
    (base.narrow requested).fsRead.workspaceOnly = true

/-- The lists of the two policies do not open up when they are intersected. -/
def SharedList (base requested : CapabilityPolicy) : Prop :=
  (base.exec.allow = [] ∧ requested.exec.allow = []) ∨
    ∃ entry ∈ base.exec.allow, entry ∈ requested.exec.allow

theorem narrowsToMeet_iff :
    NarrowsToMeet base requested ↔
      (requested.fsRead.workspaceOnly = true → base.fsRead.workspaceOnly = true) ∧
      (base.exec.mode = execAllowlist → requested.exec.mode = execAllowlist →
        SharedList base requested) := by
  constructor
  · rintro ⟨hperm, -, hcontd⟩
    refine ⟨fun hasked => ?_, fun hbase hreq => ?_⟩
    · have h := hcontd (.inr hasked)
      simpa [narrow_fsRead_workspaceOnly, hasked] using h
    · by_cases hshared : ∃ e ∈ base.exec.allow, e ∈ requested.exec.allow
      · exact .inr hshared
      -- an open intersection is within both lists only if both are open
      have hopen : (base.narrow requested).exec.allow = [] := by
        rw [narrow_exec_eq _ hreq, intersection_eq_nil_iff]
        intro e hleft hright
        exact hshared ⟨e, hleft, hright⟩
      have hrun : ∀ program, (base.narrow requested).Lists program →
          (base.narrow requested).Permits (.run false program 0 0) := fun program hl =>
        ⟨narrow_exec_mode hbase hreq, hl, nofun, UInt64.zero_le, UInt64.zero_le⟩
      exact .inl
        ⟨allow_eq_nil_of_lists hopen fun program hl => (hperm _ (hrun program hl)).1.2.1,
          allow_eq_nil_of_lists hopen fun program hl => (hperm _ (hrun program hl)).2.2.1⟩
  · rintro ⟨hasked, hshared⟩
    refine ⟨fun use hperm => ?_, readMaxBytes_narrow base requested, fun hone => ?_⟩
    · cases use with
      | call action => exact (allows_narrow_iff ..).mp hperm
      | read inside bytes =>
        obtain ⟨⟨hbase, hreq⟩, hinside, hcap, hcapReq⟩ := (permits_read_narrow_iff ..).mp hperm
        exact ⟨⟨hbase, fun h => hinside (.inl h), hcap⟩, hreq,
          fun h => hinside (.inl (hasked h)), hcapReq⟩
      | run legacy program seconds outputBytes =>
        obtain ⟨⟨hbase, hreq⟩, hlisted, hlegacy, hseconds, hbytes⟩ :=
          (permits_run_narrow_iff ..).mp hperm
        obtain ⟨hl, hr⟩ : base.Lists program ∧ requested.Lists program := by
          rw [Lists, narrow_exec_eq _ hreq] at hlisted
          rcases hshared hbase hreq with ⟨hnone, hopen⟩ | ⟨e, hleft, hright⟩
          · exact ⟨.inl hnone, .inl hopen⟩
          · rcases hlisted with hnil | ⟨named, hnamed, hstem⟩
            · exact absurd hright ((intersection_eq_nil_iff ..).mp hnil e hleft)
            · obtain ⟨hl, hr⟩ := mem_intersection_iff.mp hnamed
              exact ⟨.inr ⟨named, hl, hstem⟩, .inr ⟨named, hr, hstem⟩⟩
        exact ⟨⟨hbase, hl, fun h => (hlegacy h).1, hseconds.1, hbytes.1⟩,
          hreq, hr, fun h => (hlegacy h).2, hseconds.2, hbytes.2⟩
      | reach host => exact (permits_reach_narrow_iff ..).mp hperm
    · have hbase : base.fsRead.workspaceOnly = true := by
        rcases hone with h | h
        · exact h
        · exact hasked h
      rw [narrow_fsRead_workspaceOnly, hbase, Bool.true_or]

/-- Narrowing is a meet, idempotent and up to order, exactly if the request does not ask for a
containment that the base lacks and the two allowlists share an entry or are both open. -/
theorem narrow_meet_iff (base requested first second : CapabilityPolicy) :
    (NarrowsToMeet base requested ∧
      (base.narrow requested).narrow requested = base.narrow requested ∧
      ∀ use, ((base.narrow first).narrow second).Permits use ↔
        ((base.narrow second).narrow first).Permits use) ↔
      (requested.fsRead.workspaceOnly = true → base.fsRead.workspaceOnly = true) ∧
      (base.exec.mode = execAllowlist → requested.exec.mode = execAllowlist →
        SharedList base requested) := by
  rw [← narrowsToMeet_iff]
  constructor
  · exact And.left
  · intro h
    exact ⟨h, narrow_narrow_self base requested,
      fun use => ⟨permits_narrow_swap, permits_narrow_swap⟩⟩

/-- A request that reads inside the workspace only is merged into a base that also reads outside,
and the merged policy still reads outside. -/
theorem narrow_drops_containment :
    let base : CapabilityPolicy := { fsRead := { workspaceOnly := false } }
    let requested : CapabilityPolicy := {}
    requested.fsRead.workspaceOnly = true ∧
      (base.narrow requested).fsRead.workspaceOnly = false ∧
      (base.narrow requested).Permits (.read false 1) ∧ ¬ requested.Permits (.read false 1) := by
  intro base requested
  have hreads : (base.narrow requested).Permits (.read false 1) :=
    ⟨by decide, by decide, by decide⟩
  exact ⟨by decide, by decide, hreads, fun h => absurd (h.2.1 rfl) (by decide)⟩

end CapabilityPolicy

end ExperienceCodex

import ExperienceCodex.Domain

/-!
# Capability policies

Every capability family carries an explicit permission value.  A scope policy may be stored per
scope, and a session request may only narrow it: `CapabilityPolicy.narrow` ignores the fields of
the request that would widen the base policy and applies those that narrow it.
-/

namespace ExperienceCodex

def fsWriteWorkspaceOnly : String := "workspace_only"
def fsWriteDeny : String := "deny"
def execOff : String := "off"
def execAllowlist : String := "allowlist"
def networkOff : String := "off"
def networkAllowlist : String := "allowlist"

/-- The reserved scope key of the global default policy. -/
def globalScopeKey : String := "__global__"

def defaultReadMaxBytes : UInt64 := 20480
def maxSpecialGrantBytes : UInt64 := 8 * 1024 * 1024

structure FsReadPolicy where
  enabled : Bool := true
  workspaceOnly : Bool := true
  maxBytes : UInt64 := defaultReadMaxBytes
  specialGrantBytes : Option UInt64 := none
deriving DecidableEq

/-- The larger of the base cap and an explicit special grant. -/
def FsReadPolicy.effectiveMaxBytes (policy : FsReadPolicy) : UInt64 :=
  let granted := (policy.specialGrantBytes.map fun value => min value maxSpecialGrantBytes).getD 0
  max (min policy.maxBytes maxSpecialGrantBytes) granted

structure ExecPolicy where
  mode : String := execOff
  allow : List String := []
  timeoutSecs : UInt64 := 60
  outputCap : UInt64 := 20000
  allowLegacyShell : Bool := false
deriving DecidableEq

structure NetworkPolicy where
  mode : String := networkOff
  allow : List String := []
deriving DecidableEq

structure CapabilityPolicy where
  fsRead : FsReadPolicy := {}
  fsWrite : String := fsWriteWorkspaceOnly
  fsDelete : String := fsWriteDeny
  exec : ExecPolicy := {}
  network : NetworkPolicy := {}
deriving DecidableEq

/-- One refusal: which action, which family, and why. -/
structure PolicyDecision where
  action : String
  family : String
  reason : String
deriving DecidableEq

/-- The common entries of two lists, sorted and without repetition. -/
def intersection (left right : List String) : List String :=
  ((left.filter fun value => right.any fun other => other == value).mergeSort
    fun a b => decide (a ≤ b)).destutter (· ≠ ·)

namespace CapabilityPolicy

def readMaxBytes (policy : CapabilityPolicy) : UInt64 := policy.fsRead.effectiveMaxBytes

/-- The permission verdict for a workflow action. -/
def check (policy : CapabilityPolicy) (action : String) : Except PolicyDecision Unit :=
  if action = "write_file" ∨ action = "append_file" ∨ action = "mkdir" ∨
      action = "copy_file" ∨ action = "move_file" then
    if policy.fsWrite = fsWriteDeny then .error ⟨action, "fs_write", "fs_write=deny"⟩
    else .ok ()
  else if action = "delete_file" then
    if policy.fsDelete ≠ fsWriteWorkspaceOnly then .error ⟨action, "fs_delete", "fs_delete=deny"⟩
    else .ok ()
  else if action = "read_file" then
    if policy.fsRead.enabled then .ok ()
    else .error ⟨action, "fs_read", "fs_read=disabled"⟩
  else if action = "exec" ∨ action = "exec_command" then
    if policy.exec.mode = execAllowlist then .ok ()
    else .error ⟨action, "exec", "exec=off"⟩
  else .error ⟨action, "unknown", "unsupported_action"⟩

/-- The action may run under the policy. -/
def allows (policy : CapabilityPolicy) (action : String) : Bool := (policy.check action).isOk

/-- How a request narrows the read policy. -/
def narrowFsRead (base requested : CapabilityPolicy) : FsReadPolicy :=
  let merged := if !requested.fsRead.enabled then { base.fsRead with enabled := false }
    else base.fsRead
  let merged := if !requested.fsRead.workspaceOnly then { merged with workspaceOnly := true }
    else merged
  let requestedReadCap := requested.fsRead.effectiveMaxBytes
  if requestedReadCap < merged.effectiveMaxBytes then
    { merged with maxBytes := requestedReadCap, specialGrantBytes := none }
  else merged

/-- How a request narrows the exec policy: a request without exec turns it off, and a request
with an allowlist is intersected with the base. -/
def narrowExec (base requested : CapabilityPolicy) : ExecPolicy :=
  if requested.exec.mode ≠ execAllowlist ∧ base.exec.mode = execAllowlist then {}
  else if requested.exec.mode = execAllowlist then
    { base.exec with
      allow := intersection base.exec.allow requested.exec.allow
      timeoutSecs := min base.exec.timeoutSecs requested.exec.timeoutSecs
      outputCap := min base.exec.outputCap requested.exec.outputCap
      allowLegacyShell := base.exec.allowLegacyShell && requested.exec.allowLegacyShell }
  else base.exec

def narrowNetwork (base requested : CapabilityPolicy) : NetworkPolicy :=
  if requested.network.mode ≠ networkAllowlist ∧ base.network.mode = networkAllowlist then {}
  else if requested.network.mode = networkAllowlist then
    { base.network with allow := intersection base.network.allow requested.network.allow }
  else base.network

/-- Merge a session request into the policy. -/
def narrow (base requested : CapabilityPolicy) : CapabilityPolicy where
  fsRead := base.narrowFsRead requested
  fsWrite := if requested.fsWrite = fsWriteDeny then fsWriteDeny else base.fsWrite
  fsDelete := if requested.fsDelete ≠ fsWriteWorkspaceOnly then fsWriteDeny else base.fsDelete
  exec := base.narrowExec requested
  network := base.narrowNetwork requested

end CapabilityPolicy

/-- The request is taken for a subset of the base. -/
def requestWithin (base requested : CapabilityPolicy) : Bool :=
  if requested.readMaxBytes > base.readMaxBytes then false
  else if requested.fsWrite ≠ fsWriteDeny ∧ base.fsWrite = fsWriteDeny then false
  else if requested.fsDelete = fsWriteWorkspaceOnly ∧ base.fsDelete ≠ fsWriteWorkspaceOnly then
    false
  else if requested.exec.mode = execAllowlist ∧
      (base.exec.mode ≠ execAllowlist ∨
        !(requested.exec.allow.all fun program =>
          base.exec.allow.any fun value => value == program) ∨
        (requested.exec.allowLegacyShell ∧ !base.exec.allowLegacyShell) ∨
        requested.exec.timeoutSecs > base.exec.timeoutSecs ∨
        requested.exec.outputCap > base.exec.outputCap) then false
  else if requested.network.mode = networkAllowlist ∧
      (base.network.mode ≠ networkAllowlist ∨
        !(requested.network.allow.all fun host =>
          base.network.allow.any fun value => value == host)) then false
  else true

variable (left right : List String)

/-- Sorting brings equal entries together, so that the walk over neighbours removes them all. -/
lemma intersection_eq_dedup :
    intersection left right =
      ((left.filter fun value => right.any fun other => other == value).mergeSort
        fun a b => decide (a ≤ b)).dedup := by
  have hsorted : ((left.filter fun value => right.any fun other => other == value).mergeSort
      fun a b => decide (a ≤ b)).Pairwise (· ≤ ·) := List.pairwise_mergeSort' (· ≤ ·) _
  exact hsorted.destutter_eq_dedup

lemma mem_intersection_iff {left right : List String} {e : String} :
    e ∈ intersection left right ↔ e ∈ left ∧ e ∈ right := by
  rw [intersection_eq_dedup, List.mem_dedup, List.mem_mergeSort, List.mem_filter, List.any_eq_true]
  simp

lemma nodup_intersection : (intersection left right).Nodup := by
  rw [intersection_eq_dedup]
  exact List.nodup_dedup _

lemma pairwise_intersection :
    (intersection left right).Pairwise (· ≤ ·) := by
  rw [intersection_eq_dedup]
  exact (List.pairwise_mergeSort' (· ≤ ·) _).sublist (List.dedup_sublist _)

/-- The members alone decide the sorted list. -/
lemma intersection_eq_of_mem_iff {left right left' right' : List String}
    (h : ∀ e, e ∈ left ∧ e ∈ right ↔ e ∈ left' ∧ e ∈ right') :
    intersection left right = intersection left' right' := by
  have hperm : (intersection left right).Perm (intersection left' right') := by
    rw [List.perm_ext_iff_of_nodup (nodup_intersection ..) (nodup_intersection ..)]
    intro e
    rw [mem_intersection_iff, mem_intersection_iff]
    exact h e
  apply hperm.eq_of_pairwise _ (pairwise_intersection ..) (pairwise_intersection ..)
  intro a b _ _ hab hba
  exact le_antisymm hab hba

lemma intersection_eq_nil_iff :
    intersection left right = [] ↔ ∀ e ∈ left, e ∉ right := by
  simp only [List.eq_nil_iff_forall_not_mem, mem_intersection_iff, not_and]

namespace CapabilityPolicy

/-- The narrowed policy keeps exec on only when both policies have it on, and then its list is
the intersection of theirs. -/
theorem narrow_exec_of_allowlist {base req : CapabilityPolicy}
    (h : (base.narrow req).exec.mode = execAllowlist) :
    base.exec.mode = execAllowlist ∧ req.exec.mode = execAllowlist ∧
      (base.narrow req).exec.allow =
        intersection base.exec.allow req.exec.allow ∧
      (base.narrow req).exec.allowLegacyShell =
        (base.exec.allowLegacyShell && req.exec.allowLegacyShell) := by
  simp only [narrow, narrowExec] at h ⊢
  by_cases hreq : req.exec.mode = execAllowlist
  · simp only [hreq, ne_eq, not_true_eq_false, false_and, if_false, if_true] at h ⊢
    exact ⟨h, trivial, trivial, trivial⟩
  · by_cases hbase : base.exec.mode = execAllowlist
    · simp only [hreq, hbase, ne_eq, not_false_eq_true, and_self, if_true] at h
      exact absurd h (by decide)
    · simp only [hreq, hbase, ne_eq, and_false, if_false] at h

lemma narrow_exec_mode {base req : CapabilityPolicy}
    (hbase : base.exec.mode = execAllowlist) (hreq : req.exec.mode = execAllowlist) :
    (base.narrow req).exec.mode = execAllowlist := by
  simp only [narrow, narrowExec, hreq, hbase, ne_eq, not_true_eq_false, false_and, if_false,
    if_true]

end CapabilityPolicy

end ExperienceCodex

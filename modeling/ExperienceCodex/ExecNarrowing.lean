import ExperienceCodex.Exec
import ExperienceCodex.Fallible

/-!
# Narrowing at the execution boundary

A session request narrows the policy of its scope.  Narrowing is sound for the process gate when
every step that spawns under the narrowed policy also spawns under the base policy.  The gate
does not match against an empty allowlist, while the intersection of two allowlists without a
common entry is empty, and this is the one case in which narrowing is not sound.
-/

namespace ExperienceCodex

open List Text CapabilityPolicy

/-- The step passes every check and reaches the spawn. -/
def Spawns (fs : FsView) (context : StepContext) (step : WorkflowStep) : Prop :=
  ∃ request, executeStep fs context step = .ok (.spawn request)

/-- What the gate requires of a policy for a command. -/
structure Admits (policy : CapabilityPolicy) (legacy : Bool) (command : StepCommand) : Prop where
  mode : policy.exec.mode = execAllowlist
  legacyShell : legacy = true → policy.exec.allowLegacyShell = true
  listed : policy.exec.allow = [] ∨
    ∃ entry ∈ policy.exec.allow, programStem entry = programStem command.program
  harmless : denylistHit command.program command.args = none

lemma policyGate_eq_ok_iff (pol : CapabilityPolicy) (step : WorkflowStep) (legacy : Bool)
    (command : StepCommand) :
    policyGate pol step legacy command = .ok () ↔ Admits pol legacy command := by
  constructor
  · intro h
    unfold policyGate at h
    split_ifs at h with hmode hlegacy hlist
    cases hdeny : denylistHit command.program command.args with
    | some reason => simp [hdeny] at h
    | none =>
      refine ⟨not_not.mp hmode, ?_, ?_, hdeny⟩
      · intro htrue
        simpa [htrue] using hlegacy
      · by_cases hnil : pol.exec.allow = []
        · exact .inl hnil
        · right
          simpa [hnil] using hlist
  · rintro ⟨hmode, hlegacy, hlisted, hdeny⟩
    have hshell : (legacy && !pol.exec.allowLegacyShell) = false := by
      cases legacy with
      | false => rfl
      | true => simp [hlegacy rfl]
    have hlist : (!pol.exec.allow.isEmpty &&
        !pol.exec.allow.any fun e =>
          programStem e == programStem command.program) = false := by
      rcases hlisted with hnil | ⟨e, hentry, hstem⟩
      · simp [hnil]
      · have hany : (pol.exec.allow.any fun e =>
            programStem e == programStem command.program) = true :=
          any_eq_true.mpr ⟨e, hentry, by simp [hstem]⟩
        simp [hany]
    simp [policyGate, hmode, hshell, hlist, hdeny]

variable (fs : FsView)

variable (context : StepContext)

variable (step : WorkflowStep)

lemma collectOutput_eq_spawn_iff
    (cmd : StepCommand) :
    (∃ req, collectOutput fs context step cmd = .ok (.spawn req)) ↔
      context.scratch = none ∧
        ∃ path, resolveProgram fs context step cmd.program = .ok path := by
  cases hscratch : context.scratch with
  | some root => simp [collectOutput, hscratch]
  | none =>
    cases hpath : resolveProgram fs context step cmd.program with
    | error e => simp [collectOutput, hscratch, hpath]
    | ok path => simp [collectOutput, hscratch, hpath]

/-- The action that selects the process form. -/
def processAction (legacy : Bool) : String := if legacy then "exec_command" else "exec"

lemma execProgram_spawn_iff
    (legacy : Bool) :
    (∃ req, execProgram fs context step legacy = .ok (.spawn req)) ↔
      ∃ cmd, readCommand fs context step legacy = .ok cmd ∧
        Admits context.policy legacy cmd ∧ context.scratch = none ∧
        ∃ path, resolveProgram fs context step cmd.program = .ok path := by
  constructor
  · rintro ⟨req, h⟩
    obtain ⟨cmd, hread, h⟩ := bind_eq_ok_iff.mp h
    obtain ⟨_, hgate, h⟩ := bind_eq_ok_iff.mp h
    refine ⟨cmd, hread, (policyGate_eq_ok_iff ..).mp hgate, ?_⟩
    exact (collectOutput_eq_spawn_iff ..).mp ⟨req, h⟩
  · rintro ⟨cmd, hread, hadmits, hspawn⟩
    obtain ⟨req, h⟩ := (collectOutput_eq_spawn_iff fs context step cmd).mpr hspawn
    refine ⟨req, ?_⟩
    simp only [execProgram, hread, ok_bind, (policyGate_eq_ok_iff ..).mpr hadmits]
    exact h

/-- A step spawns exactly when it is a process step whose command can be read, is admitted by
the policy and can be resolved, outside a dry run. -/
theorem spawns_iff :
    Spawns fs context step ↔
      ∃ legacy command, step.action = processAction legacy ∧
        readCommand fs context step legacy = .ok command ∧
        Admits context.policy legacy command ∧ context.scratch = none ∧
        ∃ path, resolveProgram fs context step command.program = .ok path := by
  constructor
  · rintro ⟨req, h⟩
    unfold executeStep at h
    cases hcheck : context.policy.check step.action with
    | error d => simp [hcheck] at h
    | ok _ =>
      simp only [hcheck] at h
      split_ifs at h with hexec hcommand hfile
      · obtain ⟨command, hspawn⟩ := (execProgram_spawn_iff ..).mp ⟨req, h⟩
        exact ⟨false, command, hexec, hspawn⟩
      · obtain ⟨command, hspawn⟩ := (execProgram_spawn_iff ..).mp ⟨req, h⟩
        exact ⟨true, command, hcommand, hspawn⟩
      · simp at h
  · rintro ⟨legacy, command, hact, hspawn⟩
    have hmode : context.policy.exec.mode = execAllowlist := hspawn.2.1.mode
    obtain ⟨req, h⟩ := (execProgram_spawn_iff fs context step legacy).mpr ⟨command, hspawn⟩
    refine ⟨req, ?_⟩
    cases legacy with
    | false => simpa [executeStep, check, hact, processAction, hmode] using h
    | true => simpa [executeStep, check, hact, processAction, hmode] using h

/-- The context with another policy. -/
def StepContext.withPolicy (context : StepContext) (policy : CapabilityPolicy) : StepContext :=
  { context with policy }

/-- Only the gate reads the policy, so that a step that spawns under one policy spawns under
each policy that admits its command. -/
theorem Spawns.mono {fs : FsView} {context : StepContext} {step : WorkflowStep}
    {pol other : CapabilityPolicy} (h : Spawns fs (context.withPolicy pol) step)
    (hadmits : ∀ legacy command, Admits pol legacy command → Admits other legacy command) :
    Spawns fs (context.withPolicy other) step := by
  rw [spawns_iff] at h ⊢
  obtain ⟨legacy, command, hact, hread, hpol, hscratch, hpath⟩ := h
  exact ⟨legacy, command, hact, hread, hadmits legacy command hpol, hscratch, hpath⟩

/-- A harmless program name of the given length. -/
def plainProgram (length : ℕ) : String := String.ofList (List.replicate length 'x')

variable (length : ℕ)

lemma plainProgram_toList :
    (plainProgram length).toList = List.replicate length 'x' := by
  simp [plainProgram]

lemma plainProgram_injective : Function.Injective plainProgram := by
  intro m n h
  have hlists := congrArg String.toList h
  rw [plainProgram_toList, plainProgram_toList] at hlists
  simpa using congrArg List.length hlists

lemma programStem_plainProgram :
    programStem (plainProgram length) = plainProgram length := by
  have hlast : afterLast (fun c => c == '/' || c == '\\') (plainProgram length) =
      plainProgram length := by
    rw [afterLast, plainProgram_toList, rtakeWhile_eq_self_iff.mpr]
    · rfl
    · intro c hc
      rw [eq_of_mem_replicate hc]
      rfl
  have hlower : toLowercase (plainProgram length) = plainProgram length := by
    rw [toLowercase_ascii, plainProgram_toList, map_replicate]
    · rfl
    · intro c hc
      rw [plainProgram_toList] at hc
      rw [eq_of_mem_replicate hc]
      decide
  have hsuf : ¬ ".exe".toList <:+ (plainProgram length).toList := by
    intro h
    have hdot : '.' ∈ (plainProgram length).toList := h.subset (by decide)
    rw [plainProgram_toList] at hdot
    exact absurd (eq_of_mem_replicate hdot) (by decide)
  rw [programStem, hlast, hlower, stripSuffix, if_neg hsuf]

lemma denylist_has_other_char :
    (dangerousProgramDenylist.all fun name => name.toList.any (· != 'x')) = true := by
  decide +kernel

lemma argPatterns_have_other_char :
    (dangerousArgPatterns.all fun pattern =>
      pattern.toList.any fun c => c != 'x' && c != ' ') = true := by
  decide +kernel

lemma denylistHit_plainProgram : denylistHit (plainProgram length) [] = none := by
  have hstem : plainProgram length ∉ dangerousProgramDenylist := by
    intro hmem
    have hother := all_eq_true.mp denylist_has_other_char _ hmem
    obtain ⟨c, hc, hne⟩ := any_eq_true.mp hother
    rw [plainProgram_toList] at hc
    exact absurd (eq_of_mem_replicate hc) (bne_iff_ne.mp hne)
  have hchars : ∀ c ∈ (plainProgram length ++ " " ++ String.intercalate " " []).toList,
      c = 'x' ∨ c = ' ' := by
    intro c hc
    rw [String.toList_append, String.toList_append, plainProgram_toList, mem_append,
      mem_append] at hc
    rcases hc with (hx | hspace) | hnil
    · exact .inl (eq_of_mem_replicate hx)
    · exact .inr (by simpa using hspace)
    · simp [String.intercalate] at hnil
  have hlower : ∀ c ∈ (toLowercase
      (plainProgram length ++ " " ++ String.intercalate " " [])).toList, c = 'x' ∨ c = ' ' := by
    rw [toLowercase_ascii _ fun c hc => by rcases hchars c hc with rfl | rfl <;> decide]
    intro c hc
    rw [String.toList_ofList, mem_map] at hc
    obtain ⟨d, hd, rfl⟩ := hc
    rcases hchars d hd with rfl | rfl <;> decide
  have hpat : (dangerousArgPatterns.find? fun pattern =>
      contains (toLowercase (plainProgram length ++ " " ++ String.intercalate " " []))
        pattern) = none := by
    rw [find?_eq_none]
    intro pattern hmem hcont
    have hother := all_eq_true.mp argPatterns_have_other_char _ hmem
    obtain ⟨c, hc, hne⟩ := any_eq_true.mp hother
    have hplain := hlower c ((of_decide_eq_true hcont).subset hc)
    rcases hplain with rfl | rfl <;> simp at hne
  simp only [denylistHit, programStem_plainProgram, hstem, if_false, hpat, Option.map_none]

/-- A bare program step. -/
def plainStep (length : ℕ) : WorkflowStep :=
  { action := "exec", args := .object [("program", .string (plainProgram length))] }

lemma readCommand_plainStep :
    readCommand fs context (plainStep length) false =
      .ok { program := plainProgram length, args := [] } := by
  simp [readCommand, requiredStr, readArgs, readCwd, readEnv, plainStep, Json.get, Json.asStr,
    List.lookup]

lemma resolveProgram_plainProgram :
    ∃ path, resolveProgram fs context step (plainProgram length) = .ok path := by
  have hbare : ((plainProgram length).toList.any fun c => c == '/' || c == '\\' || c == ':') =
      false := by
    rw [plainProgram_toList, any_replicate]
    split_ifs <;> rfl
  cases hroot : context.runRoot with
  | none =>
    refine ⟨plainProgram length, ?_⟩
    simp only [resolveProgram, hbare, hroot, Bool.false_eq_true, if_false]
  | some root =>
    simp only [resolveProgram, hbare, hroot, Bool.false_eq_true, if_false]
    split_ifs
    · exact ⟨_, rfl⟩
    · exact ⟨_, rfl⟩

lemma exists_unlisted_plainProgram (allow : List String) :
    ∃ length, ∀ e ∈ allow, programStem e ≠ plainProgram length := by
  have hinfinite := Set.infinite_range_of_injective plainProgram_injective
  obtain ⟨program, ⟨length, rfl⟩, hfresh⟩ :=
    hinfinite.exists_notMem_finset (allow.map programStem).toFinset
  refine ⟨length, fun e hentry heq => hfresh ?_⟩
  rw [mem_toFinset, mem_map]
  exact ⟨e, hentry, heq⟩

/-- Both policies have exec on, and the nonempty base list shares no entry with the request. -/
def DisjointAllowlists (base requested : CapabilityPolicy) : Prop :=
  base.exec.mode = execAllowlist ∧ requested.exec.mode = execAllowlist ∧
    base.exec.allow ≠ [] ∧ ∀ entry ∈ base.exec.allow, entry ∉ requested.exec.allow

/-- Narrowing is sound at the execution boundary, outside a dry run, exactly when the two
allowlists are not disjoint. -/
theorem narrow_sound_iff (fs : FsView) (context : StepContext)
    (base requested : CapabilityPolicy) :
    (∀ step, Spawns fs (context.withPolicy (base.narrow requested)) step →
        Spawns fs (context.withPolicy base) step) ↔
      context.scratch.isSome ∨ ¬ DisjointAllowlists base requested := by
  constructor
  · intro hsound
    by_contra hboth
    rw [not_or, not_not] at hboth
    have hscratch : context.scratch = none := by simpa using hboth.1
    obtain ⟨hbase, hreq, hne, hdisj⟩ := hboth.2
    -- the narrowed list is empty, so it admits a program that the base does not list
    obtain ⟨length, hfresh⟩ := exists_unlisted_plainProgram base.exec.allow
    have hmode := narrow_exec_mode hbase hreq
    obtain ⟨-, -, hallow, -⟩ := narrow_exec_of_allowlist hmode
    have hnarrowed : Spawns fs (context.withPolicy (base.narrow requested)) (plainStep length) := by
      rw [spawns_iff]
      refine ⟨false, _, rfl, readCommand_plainStep .., ⟨hmode, nofun, .inl ?_, ?_⟩, hscratch, ?_⟩
      · rw [StepContext.withPolicy, hallow, intersection_eq_nil_iff]
        exact hdisj
      · exact denylistHit_plainProgram length
      · exact resolveProgram_plainProgram ..
    obtain ⟨legacy, command, hact, hread, hadmits, -⟩ :=
      (spawns_iff ..).mp (hsound _ hnarrowed)
    cases legacy with
    | true => simp [plainStep, processAction] at hact
    | false =>
      rw [readCommand_plainStep] at hread
      cases hread
      rcases hadmits.listed with hnil | ⟨e, hentry, hstem⟩
      · exact hne hnil
      · rw [programStem_plainProgram] at hstem
        exact hfresh e hentry hstem
  · intro hcond step h
    rcases hcond with hscratch | hshared
    · obtain ⟨_, _, _, _, _, hnone, _⟩ := (spawns_iff ..).mp h
      simp [StepContext.withPolicy] at hnone
      simp [hnone] at hscratch
    · refine h.mono fun legacy command hadmits => ?_
      obtain ⟨hbase, hreq, hallow, hlegacy⟩ := narrow_exec_of_allowlist hadmits.mode
      refine ⟨hbase, ?_, ?_, hadmits.harmless⟩
      · intro htrue
        have hboth := hadmits.legacyShell htrue
        rw [hlegacy, Bool.and_eq_true] at hboth
        exact hboth.1
      · -- an entry of both lists keeps the narrowed list from being empty
        by_contra hnone
        rw [not_or] at hnone
        refine hshared ⟨hbase, hreq, hnone.1, fun entry hleft hright => ?_⟩
        have hlisted := hadmits.listed
        rw [hallow] at hlisted
        rcases hlisted with hempty | ⟨named, hnamed, hstem⟩
        · exact (intersection_eq_nil_iff ..).mp hempty entry hleft hright
        · exact hnone.2 ⟨named, (mem_intersection_iff.mp hnamed).1, hstem⟩

/-- A session that asks for `cargo` where the base allows `git` may run `python`. -/
theorem narrow_widens_git_by_cargo :
    let fs : FsView := ⟨.ok, fun _ => true, fun _ => false⟩
    let base : CapabilityPolicy := { exec := { mode := execAllowlist, allow := ["git"] } }
    let requested : CapabilityPolicy := { exec := { mode := execAllowlist, allow := ["cargo"] } }
    let context : StepContext := { canonicalWorkspace := "/work", policy := base }
    let step : WorkflowStep :=
      { action := "exec", args := .object [("program", .string "python")] }
    Spawns fs (context.withPolicy (base.narrow requested)) step ∧
      ¬ Spawns fs (context.withPolicy base) step := by
  intro fs base requested context step
  constructor
  · refine ⟨_, (?_ : executeStep fs (context.withPolicy (base.narrow requested)) step =
      .ok (.spawn ⟨"python", [], "/work", [], 60, 20000⟩))⟩
    decide +kernel
  · rintro ⟨request, h⟩
    have hrefused : (executeStep fs (context.withPolicy base) step).toOption = none := by
      decide +kernel
    rw [h] at hrefused
    cases hrefused

end ExperienceCodex

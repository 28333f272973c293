import ExperienceCodex.PathUri

/-!
# Rules for commands

An exec policy has prefix rules for programs, and lists the executables that a program's name may
stand for.  A command is matched with the rules for its first token as it is spelled, and only if
none of them matches with the rules for the name of the program that the token names.

A policy may be overlaid with requirements.  They forbid what they forbid alone, unless the rules
that are overlaid hide them.
-/

namespace ExperienceCodex.ExecRules

/-- Decisions, from the least to the most restrictive. -/
inductive Decision where
  | allow
  | prompt
  | forbidden
deriving DecidableEq, Repr

namespace Decision

def severity : Decision → ℕ
  | allow => 0
  | prompt => 1
  | forbidden => 2

lemma severity_injective : Function.Injective severity := by
  intro a b h
  cases a <;> cases b <;> simp_all [severity]

instance : LinearOrder Decision := LinearOrder.lift' severity severity_injective

end Decision

/-- A token of a pattern. -/
inductive PatternToken where
  | single (expected : Bytes)
  | alts (alternatives : List Bytes)
deriving DecidableEq

def PatternToken.matches : PatternToken → Bytes → Bool
  | .single expected, token => expected == token
  | .alts alternatives, token => alternatives.any fun alt => alt == token

structure PrefixPattern where
  first : Bytes
  rest : List PatternToken
deriving DecidableEq

/-- The tokens of a command that a pattern matches. -/
def PrefixPattern.matchesPrefix (pattern : PrefixPattern) : List Bytes → Option (List Bytes)
  | [] => none
  | first :: args =>
    if args.length < pattern.rest.length ∨ first ≠ pattern.first then none
    else if (pattern.rest.zip args).all fun pair => pair.1.matches pair.2 then
      some (first :: args.take pattern.rest.length)
    else none

structure PrefixRule where
  pattern : PrefixPattern
  decision : Decision
  justification : Option Bytes
deriving DecidableEq

inductive RuleMatch where
  | prefixRuleMatch (matchedPrefix : List Bytes) (decision : Decision)
      (resolvedProgram : Option AbsolutePath) (justification : Option Bytes)
  | heuristicsRuleMatch (command : List Bytes) (decision : Decision)
deriving DecidableEq

namespace RuleMatch

def decision : RuleMatch → Decision
  | prefixRuleMatch _ decision _ _ => decision
  | heuristicsRuleMatch _ decision => decision

def withResolvedProgram (program : AbsolutePath) : RuleMatch → RuleMatch
  | prefixRuleMatch matched decision _ justification =>
    prefixRuleMatch matched decision (some program) justification
  | heuristicsRuleMatch command decision => heuristicsRuleMatch command decision

end RuleMatch

def PrefixRule.matches (rule : PrefixRule) (cmd : List Bytes) : Option RuleMatch :=
  (rule.pattern.matchesPrefix cmd).map fun matched =>
    .prefixRuleMatch matched rule.decision none rule.justification

/-- The rules by their programs, in the order of their insertion, and the executables by name. -/
structure Policy where
  rulesByProgram : List (Bytes × PrefixRule)
  hostExecutablesByName : List (Bytes × List AbsolutePath)

structure MatchOptions where
  resolveHostExecutables : Bool := false

namespace Policy

variable (policy : Policy)

def rulesFor (program : Bytes) : List PrefixRule :=
  (policy.rulesByProgram.filter fun entry => entry.1 == program).map Prod.snd

/-- Requirements come after the rules that they overlay; their executables replace the others. -/
def mergeOverlay (overlay : Policy) : Policy where
  rulesByProgram := policy.rulesByProgram ++ overlay.rulesByProgram
  hostExecutablesByName := overlay.hostExecutablesByName ++ policy.hostExecutablesByName

/-- The rules for the first token as it is spelled. -/
def matchExactRules (cmd : List Bytes) : Option (List RuleMatch) :=
  cmd.head?.map fun first => (policy.rulesFor first).filterMap fun rule => rule.matches cmd

end Policy

/-- The name under which an executable is looked up. -/
def executablePathLookupKey (path : AbsolutePath) : Option Bytes :=
  path.getLast?.bind fun name => if isUtf8 name.val then some name.val else none

/-- The program that a command names, and its name. -/
def programOf (host : LocalHost) (cmd : List Bytes) : Option (AbsolutePath × Bytes) := do
  let first ← cmd.head?
  let program ← host.fromAbsolutePath first
  let basename ← executablePathLookupKey program
  return (program, basename)

namespace Policy

variable (host : LocalHost) (policy : Policy)

/-- The executables of a name do not keep a program from standing for it. -/
def lists (program : AbsolutePath) (basename : Bytes) : Bool :=
  match policy.hostExecutablesByName.lookup basename with
  | some paths => paths.any fun path => path == program
  | none => true

/-- The rules for the name of a program. -/
def matchBasenameRules (cmd : List Bytes) (program : AbsolutePath) (basename : Bytes) :
    List RuleMatch :=
  ((policy.rulesFor basename).filterMap fun rule => rule.matches (basename :: cmd.tail)).map
    (RuleMatch.withResolvedProgram program)

def matchHostExecutableRules (cmd : List Bytes) : List RuleMatch :=
  match programOf host cmd with
  | none => []
  | some (program, basename) =>
    if policy.lists program basename then policy.matchBasenameRules cmd program basename else []

def matchesForCommandWithOptions (cmd : List Bytes)
    (heuristicsFallback : Option (List Bytes → Decision)) (options : MatchOptions) :
    List RuleMatch :=
  let exact := (policy.matchExactRules cmd).getD []
  let matchedRules :=
    if !exact.isEmpty then exact
    else if options.resolveHostExecutables then policy.matchHostExecutableRules host cmd
    else []
  match matchedRules.isEmpty, heuristicsFallback with
  | true, some fallback => [.heuristicsRuleMatch cmd (fallback cmd)]
  | _, _ => matchedRules

/-- The most restrictive decision of the matches.  There are matches when there is a fallback. -/
def checkWithOptions (cmd : List Bytes) (heuristicsFallback : List Bytes → Decision)
    (options : MatchOptions) : Option Decision :=
  ((policy.matchesForCommandWithOptions host cmd (some heuristicsFallback) options).map
    RuleMatch.decision).max?

end Policy

section
variable {host : LocalHost} {user overlay policy : Policy} {cmd : List Bytes}
  {fallback : List Bytes → Decision} {program : AbsolutePath} {basename : Bytes}

/-- The matches of the rules for the first token as it is spelled. -/
abbrev exactMatches (policy : Policy) (cmd : List Bytes) : List RuleMatch :=
  (policy.matchExactRules cmd).getD []

lemma rulesFor_mergeOverlay (program : Bytes) :
    (user.mergeOverlay overlay).rulesFor program =
      user.rulesFor program ++ overlay.rulesFor program := by
  simp [Policy.rulesFor, Policy.mergeOverlay]

lemma exactMatches_mergeOverlay :
    exactMatches (user.mergeOverlay overlay) cmd =
      exactMatches user cmd ++ exactMatches overlay cmd := by
  cases cmd with
  | nil => rfl
  | cons first args => simp [exactMatches, Policy.matchExactRules, rulesFor_mergeOverlay]

/-- The requirements list the executables of a name. -/
def Policy.Names (policy : Policy) (basename : Bytes) : Prop :=
  (policy.hostExecutablesByName.lookup basename).isSome = true

instance : Decidable (policy.Names basename) := inferInstanceAs (Decidable (_ = _))

lemma lists_mergeOverlay :
    (user.mergeOverlay overlay).lists program basename =
      if overlay.Names basename then overlay.lists program basename
      else user.lists program basename := by
  unfold Policy.lists Policy.mergeOverlay
  rw [List.lookup_append]
  by_cases hnames : overlay.Names basename
  · obtain ⟨paths, hpaths⟩ := Option.isSome_iff_exists.mp hnames
    rw [if_pos hnames, hpaths, Option.some_or]
  · have hnone : overlay.hostExecutablesByName.lookup basename = none :=
      Option.not_isSome_iff_eq_none.mp hnames
    rw [if_neg hnames, hnone, Option.none_or]

lemma lists_of_not_names (h : ¬ overlay.Names basename) :
    overlay.lists program basename = true := by
  unfold Policy.Names at h
  unfold Policy.lists
  cases hfound : overlay.hostExecutablesByName.lookup basename with
  | none => rfl
  | some paths => simp [hfound] at h

/-- Some match forbids. -/
def Forbids (matched : List RuleMatch) : Prop := ∃ found ∈ matched, found.decision = .forbidden

lemma forbids_append {first second : List RuleMatch} :
    Forbids (first ++ second) ↔ Forbids first ∨ Forbids second := by
  simp [Forbids, or_and_right, exists_or]

lemma max_eq_forbidden_iff {decisions : List Decision} :
    decisions.max? = some .forbidden ↔ .forbidden ∈ decisions := by
  rw [List.max?_eq_some_iff]
  constructor
  · intro h
    exact h.1
  · intro h
    exact ⟨h, fun decision _ => by cases decision <;> decide⟩

/-- When a policy forbids a command. -/
lemma checkWithOptions_forbidden_iff :
    policy.checkWithOptions host cmd fallback { resolveHostExecutables := true } =
        some .forbidden ↔
      if exactMatches policy cmd ≠ [] then Forbids (exactMatches policy cmd)
      else if policy.matchHostExecutableRules host cmd ≠ [] then
        Forbids (policy.matchHostExecutableRules host cmd)
      else fallback cmd = .forbidden := by
  have hmatches : policy.matchesForCommandWithOptions host cmd (some fallback)
      { resolveHostExecutables := true } =
      if exactMatches policy cmd ≠ [] then exactMatches policy cmd
      else if policy.matchHostExecutableRules host cmd ≠ [] then
        policy.matchHostExecutableRules host cmd
      else [.heuristicsRuleMatch cmd (fallback cmd)] := by
    unfold Policy.matchesForCommandWithOptions
    by_cases hexact : exactMatches policy cmd = []
    · by_cases hhost : policy.matchHostExecutableRules host cmd = []
      · simp [hexact, hhost]
      · have hsome : (policy.matchHostExecutableRules host cmd).isEmpty = false := by
          simpa using hhost
        simp [hexact, hhost, hsome]
    · have hsome : (exactMatches policy cmd).isEmpty = false := by simpa using hexact
      simp [hexact, hsome]
  rw [Policy.checkWithOptions, max_eq_forbidden_iff, hmatches]
  split_ifs
  · simp [Forbids]
  · simp [Forbids]
  · simp [RuleMatch.decision, eq_comm]

/-- The overlaid rules do not hide what requirements forbid: where no requirement matches the
program as it is spelled, the overlaid rules for it forbid or do not match, the overlaid executables
do not keep the program from the requirements for its name, and what only the fallback forbids is
not decided by the overlaid rules for its name. -/
structure Unhidden (host : LocalHost) (user overlay : Policy) (fallback : List Bytes → Decision)
    (cmd : List Bytes) : Prop where
  exact : exactMatches user cmd ≠ [] → Forbids (exactMatches user cmd)
  listed : exactMatches user cmd = [] → ∀ program basename,
    programOf host cmd = some (program, basename) → ¬ overlay.Names basename →
    user.lists program basename = false → fallback cmd = .forbidden
  named : exactMatches user cmd = [] → ∀ program basename,
    programOf host cmd = some (program, basename) →
    overlay.matchHostExecutableRules host cmd = [] →
    (user.mergeOverlay overlay).lists program basename = true →
    user.matchBasenameRules cmd program basename ≠ [] →
    Forbids (user.matchBasenameRules cmd program basename)

/-- The rules for the name of a program, where both policies are asked for it. -/
lemma named_forbidden_iff (hprog : programOf host cmd = some (program, basename))
    (hexact : exactMatches user cmd = []) (hlists : overlay.lists program basename = true)
    (hmerged : (user.mergeOverlay overlay).lists program basename = true)
    (hoverlay : if overlay.matchHostExecutableRules host cmd ≠ [] then
      Forbids (overlay.matchHostExecutableRules host cmd) else fallback cmd = .forbidden) :
    (if (user.mergeOverlay overlay).matchHostExecutableRules host cmd ≠ [] then
        Forbids ((user.mergeOverlay overlay).matchHostExecutableRules host cmd)
      else fallback cmd = .forbidden) ↔ Unhidden host user overlay fallback cmd := by
  have hhost : overlay.matchHostExecutableRules host cmd =
      overlay.matchBasenameRules cmd program basename := by
    simp [Policy.matchHostExecutableRules, hprog, hlists]
  have hboth : (user.mergeOverlay overlay).matchHostExecutableRules host cmd =
      user.matchBasenameRules cmd program basename ++
        overlay.matchBasenameRules cmd program basename := by
    simp [Policy.matchHostExecutableRules, hprog, hmerged, Policy.matchBasenameRules,
      rulesFor_mergeOverlay]
  have hlisted (hnames : ¬ overlay.Names basename) : user.lists program basename = true := by
    rwa [lists_mergeOverlay, if_neg hnames] at hmerged
  rw [hhost] at hoverlay
  rw [hboth]
  constructor
  · intro hforbidden
    refine ⟨fun h => absurd hexact h, ?_, ?_⟩
    · intro _ program' basename' hsome hnames hhidden
      rw [hprog, Option.some.injEq, Prod.mk.injEq] at hsome
      obtain ⟨rfl, rfl⟩ := hsome
      rw [hlisted hnames] at hhidden
      cases hhidden
    · intro _ program' basename' hsome hnone _ huser
      rw [hprog, Option.some.injEq, Prod.mk.injEq] at hsome
      obtain ⟨rfl, rfl⟩ := hsome
      rw [hhost] at hnone
      rwa [hnone, List.append_nil, if_pos huser] at hforbidden
  · intro hunhidden
    by_cases hnone : overlay.matchBasenameRules cmd program basename = []
    · rw [hnone, List.append_nil]
      rw [hnone, if_neg (by simp)] at hoverlay
      split_ifs with huser
      · exact hunhidden.named hexact program basename hprog (hhost.trans hnone) hmerged huser
      · exact hoverlay
    · rw [if_pos hnone] at hoverlay
      rw [if_pos (by simp [hnone]), forbids_append]
      exact .inr hoverlay

/-- What requirements forbid alone is forbidden after they are overlaid exactly when the overlaid
rules do not hide them. -/
theorem overlay_forbids_iff
    (hoverlay : overlay.checkWithOptions host cmd fallback { resolveHostExecutables := true } =
      some .forbidden) :
    (user.mergeOverlay overlay).checkWithOptions host cmd fallback
        { resolveHostExecutables := true } = some .forbidden ↔
      (exactMatches overlay cmd = [] → Unhidden host user overlay fallback cmd) := by
  rw [checkWithOptions_forbidden_iff] at hoverlay
  rw [checkWithOptions_forbidden_iff, exactMatches_mergeOverlay]
  by_cases hrequired : exactMatches overlay cmd = []
  swap
  · -- A requirement for the program as it is spelled is always looked at.
    rw [if_pos hrequired] at hoverlay
    rw [if_pos (by simp [hrequired]), forbids_append]
    simp [hoverlay, hrequired]
  rw [hrequired, if_neg (by simp)] at hoverlay
  rw [hrequired, List.append_nil]
  by_cases hexact : exactMatches user cmd = []
  swap
  · rw [if_pos hexact]
    constructor
    · intro hforbids _
      exact ⟨fun _ => hforbids, fun h => absurd h hexact, fun h => absurd h hexact⟩
    · intro h
      exact (h rfl).exact hexact
  rw [if_neg (by simp [hexact])]
  simp only [forall_const]
  cases hprogram : programOf host cmd with
  | none =>
    have hnone (policy : Policy) : policy.matchHostExecutableRules host cmd = [] := by
      simp [Policy.matchHostExecutableRules, hprogram]
    rw [hnone, if_neg (by simp)] at hoverlay ⊢
    refine iff_of_true hoverlay ⟨fun h => absurd hexact h, ?_, ?_⟩
    · intro _ _ _ hsome
      simp [hprogram] at hsome
    · intro _ _ _ hsome
      simp [hprogram] at hsome
  | some found =>
    obtain ⟨program, basename⟩ := found
    by_cases hmerged : (user.mergeOverlay overlay).lists program basename = true
    · have hlists : overlay.lists program basename = true := by
        by_cases hnames : overlay.Names basename
        · rwa [lists_mergeOverlay, if_pos hnames] at hmerged
        · exact lists_of_not_names hnames
      exact named_forbidden_iff hprogram hexact hlists hmerged hoverlay
    · -- The program does not stand for its name, so only the fallback is left.
      have hnone : (user.mergeOverlay overlay).matchHostExecutableRules host cmd = [] := by
        simp [Policy.matchHostExecutableRules, hprogram, hmerged]
      rw [hnone, if_neg (by simp)]
      constructor
      · intro hfallback
        refine ⟨fun h => absurd hexact h, fun _ _ _ _ _ _ => hfallback, ?_⟩
        intro _ program' basename' hsome _ hlists
        rw [hprogram, Option.some.injEq, Prod.mk.injEq] at hsome
        obtain ⟨rfl, rfl⟩ := hsome
        exact absurd hlists hmerged
      · intro hunhidden
        rw [lists_mergeOverlay] at hmerged
        by_cases hnames : overlay.Names basename
        · rw [if_pos hnames] at hmerged
          have hoverlayNone : overlay.matchHostExecutableRules host cmd = [] := by
            simp [Policy.matchHostExecutableRules, hprogram, hmerged]
          rwa [hoverlayNone, if_neg (by simp)] at hoverlay
        · rw [if_neg hnames] at hmerged
          exact hunhidden.listed hexact program basename hprogram hnames (by simpa using hmerged)

end

/-- A policy with one rule for a program. -/
def ruleFor (program : String) (decision : Decision) : Policy where
  rulesByProgram := [(ascii program, ⟨⟨ascii program, []⟩, decision, none⟩)]
  hostExecutablesByName := []

/-- A rule for the path of a program hides the requirement for its name. -/
theorem path_rule_hides_requirement :
    (ruleFor "rm" .forbidden).checkWithOptions bareHost [ascii "/bin/rm", ascii "x"]
        (fun _ => .allow) { resolveHostExecutables := true } = some .forbidden ∧
      ((ruleFor "/bin/rm" .allow).mergeOverlay (ruleFor "rm" .forbidden)).checkWithOptions
        bareHost [ascii "/bin/rm", ascii "x"] (fun _ => .allow)
        { resolveHostExecutables := true } = some .allow := by
  decide +kernel

theorem overlay_forbids_small :
    ((ruleFor "ls" .allow).mergeOverlay (ruleFor "rm" .forbidden)).checkWithOptions
      bareHost [ascii "/bin/rm", ascii "x"] (fun _ => .allow)
      { resolveHostExecutables := true } = some .forbidden := by
  have halone : (ruleFor "rm" .forbidden).checkWithOptions bareHost [ascii "/bin/rm", ascii "x"]
      (fun _ => .allow) { resolveHostExecutables := true } = some .forbidden := by decide +kernel
  have hexact : exactMatches (ruleFor "ls" .allow) [ascii "/bin/rm", ascii "x"] = [] := by
    decide +kernel
  refine (overlay_forbids_iff halone).mpr fun _ => ⟨fun h => absurd hexact h, ?_, ?_⟩
  · intro _ program basename _ _ hlists
    cases hlists
  · intro _ program basename hprogram _ _ hnamed
    have hrm : programOf bareHost [ascii "/bin/rm", ascii "x"] =
        some (walkPath [] (ascii "/bin/rm"), ascii "rm") := by decide +kernel
    rw [hrm, Option.some.injEq, Prod.mk.injEq] at hprogram
    rw [← hprogram.1, ← hprogram.2] at hnamed
    exact absurd (by decide +kernel) hnamed

end ExperienceCodex.ExecRules

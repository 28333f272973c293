import ExperienceCodex.Disk

/-!
# Dangerous commands

A command is searched for a forced removal, also below wrappers that run another command.  Each
wrapper takes a level of depth, and what lies below the last level counts as dangerous.
-/

namespace ExperienceCodex.CommandSafety

open List Text

inductive DangerousCommandMatch where
  | forcedRm
  | other
deriving DecidableEq

/-- The last name of a path. -/
def executableNameLookupKey (raw : String) : Option String :=
  match ((splitAtChars (· == '/') raw).filterMap pieceStep).getLast? with
  | some (.down name) => some name.val
  | _ => none

def rmArgsIncludeForceOption (args : List String) : Bool :=
  (args.takeWhile (· ≠ "--")).any fun arg =>
    arg == "--force" || match arg.toList with
      | '-' :: flags => flags.head? != some '-' && flags.contains 'f'
      | _ => false

/-- An option or an assignment in front of the command that `env` runs. -/
def isSkipped (arg : String) : Bool :=
  let name := arg.toList.takeWhile (· ≠ '=')
  arg == "-i" || arg == "--ignore-environment" ||
    arg.toList.contains '=' && name != [] && name.head? != some '-'

def envCommand : List String → List String
  | [] => []
  | arg :: rest =>
    if arg = "--" then rest
    else if isSkipped arg then envCommand rest
    else arg :: rest

def trapAction (args : List String) : Option String :=
  (if args.head? = some "--" then args.tail else args).head?.filter (·.toList.head? != some '-')

def isForcedRm : List String → Bool
  | [] => false
  | program :: args =>
    executableNameLookupKey program == some "rm" && rmArgsIncludeForceOption args

inductive ShellType where
  | zsh
  | bash
  | powerShell
  | sh
  | cmd
deriving DecidableEq

def namedShell : String → Option ShellType
  | "zsh" => some .zsh
  | "sh" => some .sh
  | "cmd" => some .cmd
  | "bash" => some .bash
  | "pwsh" | "powershell" => some .powerShell
  | _ => none

/-- A file name without its last extension. -/
def fileStem (name : String) : String :=
  let before := (name.toList.reverse.dropWhile (· ≠ '.')).tail.reverse
  if name = ".." ∨ before = [] then name else String.ofList before

/-- The path is the bare name, but for slashes and dots behind it. -/
def isBareName (path name : String) : Bool :=
  match splitAtChars (· == '/') path with
  | [] => false
  | first :: rest => first == name && rest.all fun piece => piece == "" || piece == "."

/-- The recursion of `detect_shell_type`, which takes one extension off in each turn. -/
def detectFrom : ℕ → String → Option ShellType
  | 0, _ => none
  | fuel + 1, path =>
    match namedShell path, executableNameLookupKey path with
    | some found, _ => some found
    | none, none => none
    | none, some name =>
      if isBareName path (fileStem name) then none else detectFrom fuel (fileStem name)

def detectShellType (path : String) : Option ShellType := detectFrom (path.length + 2) path

def isShell (path : String) : Bool :=
  [some .zsh, some .bash, some .sh].contains (detectShellType path)

section
variable (parser : String → Option (List (List String)))

def parseShellLcLiteralCommands : List String → Option (List (List String))
  | [shell, flag, script] =>
    if (flag = "-lc" ∨ flag = "-c") ∧ isShell shell then parser script else none
  | _ => none

/-- The commands that a command runs, as far as they are looked into. -/
def commandsOf (command : List String) : List (List String) :=
  (match command with
  | [] => []
  | program :: args =>
    let key := executableNameLookupKey program
    if key = some "sudo" then [args]
    else if key = some "env" then [envCommand args]
    else if key = some "trap" then (trapAction args).toList.map (["sh", "-c", ·])
    else []) ++ (parseShellLcLiteralCommands parser command).getD []

/-- The search with so many levels left. -/
def matchWithin : ℕ → List String → Option DangerousCommandMatch
  | 0, _ => some .other
  | left + 1, command =>
    if isForcedRm command then some .forcedRm
    else (commandsOf parser command).findSome? (matchWithin left)

/-- At the start the depth is 0, and it may reach 8. -/
def dangerousCommandMatch (command : List String) : Option DangerousCommandMatch :=
  matchWithin parser 9 command

end

/-- A way to write the program of a name that `env` does not take for an assignment. -/
def Calls (program name : String) : Prop :=
  executableNameLookupKey program = some name ∧ '=' ∉ program.toList

/-- What a command may be put under. -/
inductive Wrapper where
  | sudoing (program : String)
  | env (program : String) (options : List String) (dashes : Bool)
  | shell (program flag script : String)
  | trap (program : String) (dashes : Bool) (action : String) (conditions : List String)

namespace Wrapper

/-- The command line of a wrapper, around a command that is not in its script. -/
def wrap (d : List String) : Wrapper → List String
  | sudoing program => program :: d
  | env program options dashes => program :: (options ++ ((if dashes then ["--"] else []) ++ d))
  | shell program flag script => [program, flag, script]
  | trap program dashes action conditions =>
    program :: ((if dashes then ["--"] else []) ++ action :: conditions)

def script : Wrapper → Option String
  | shell _ _ script => some script
  | trap _ _ action _ => some action
  | _ => none

/-- Without two dashes a word that begins with a dash is an option of `trap`, and no action. -/
def Wf : Wrapper → Prop
  | sudoing program => Calls program "sudo"
  | env program options _ => Calls program "env" ∧ ∀ arg ∈ options, isSkipped arg = true
  | shell program flag _ =>
    isShell program = true ∧ '=' ∉ program.toList ∧ (flag = "-lc" ∨ flag = "-c")
  | trap program dashes action _ =>
    Calls program "trap" ∧ (dashes = false → action.toList.head? ≠ some '-')

/-- An action that begins with a dash. -/
def Dashed : Wrapper → Prop
  | trap _ _ action _ => action.toList.head? = some '-'
  | _ => False

/-- A trap takes a level for its shell as well. -/
def levels : Wrapper → ℕ
  | trap .. => 2
  | _ => 1

end Wrapper

/-- A command below wrappers, the outermost first. -/
def nested (c : List String) : List Wrapper → List String
  | [] => c
  | w :: ws => w.wrap (nested c ws)

section
variable (parser : String → Option (List (List String))) (c : List String) (ws : List Wrapper)

/-- The parser finds what is nested in each script. -/
def Reads : Prop :=
  ∀ w rest, w :: rest <:+ ws → ∀ script ∈ w.script,
    ∃ commands, parser script = some commands ∧ nested c rest ∈ commands

/-- The parser finds nothing else. -/
def ReadsOnly : Prop :=
  ∀ w rest, w :: rest <:+ ws → ∀ script ∈ w.script, parser script = some [nested c rest]

/-- Whatever the parser makes of the scripts, a dangerous command is found below the wrappers. -/
def Found : Prop :=
  ∀ parser c, Reads parser c ws → (dangerousCommandMatch parser c).isSome →
    (∀ word ∈ c.head?, '=' ∉ word.toList) → (dangerousCommandMatch parser (nested c ws)).isSome

/-- No action that begins with a dash lies within so many levels. -/
def Clear : ℕ → List Wrapper → Prop
  | _, [] => True
  | left, w :: ws => left = 0 ∨ ¬ w.Dashed ∧ Clear (left - w.levels) ws

end

/-- What runs another command is no shell. -/
lemma isShell_eq_false {word name : String} (hname : name ∈ ["rm", "sudo", "env", "trap"])
    (hkey : executableNameLookupKey word = some name) : isShell word = false := by
  have hshells : ∀ name ∈ ["rm", "sudo", "env", "trap"], ∀ shell ∈ ["zsh", "sh", "cmd", "bash",
      "pwsh", "powershell"], executableNameLookupKey shell ≠ some name := by decide
  have hfacts : ∀ name ∈ ["rm", "sudo", "env", "trap"], namedShell name = none ∧
      executableNameLookupKey name = some name ∧ fileStem name = name ∧
      isBareName name name = true := by decide
  obtain ⟨hnamed, hself, hstem, hbare⟩ := hfacts name hname
  have hnone : namedShell word = none := by
    have hword : word ∉ ["zsh", "sh", "cmd", "bash", "pwsh", "powershell"] := fun hmem =>
      hshells name hname word hmem hkey
    simp only [mem_cons, not_mem_nil, or_false, not_or] at hword
    unfold namedShell
    split <;> simp_all
  have hagain (fuel : ℕ) : detectFrom fuel name = none := by
    cases fuel with
    | zero => rfl
    | succ fuel => simp [detectFrom, hnamed, hself, hstem, hbare]
  have hdetect : detectShellType word = none := by
    rw [detectShellType, detectFrom, hnone, hkey]
    simp [hstem, hagain]
  rw [isShell, hdetect]
  rfl

/-- `env` runs the command that begins with such a word. -/
def Begins (word : String) : Prop := isSkipped word = false ∧ word ≠ "--"

lemma begins {word : String} (heq : '=' ∉ word.toList)
    (hoption : word ∉ ["--", "-i", "--ignore-environment"]) : Begins word := by
  simp [Begins, isSkipped, heq] at hoption ⊢
  tauto

variable {parser : String → Option (List (List String))} {c d : List String} {left : ℕ}
  {w : Wrapper} {ws : List Wrapper}

lemma isSome_succ_iff : (matchWithin parser (left + 1) c).isSome ↔
    isForcedRm c = true ∨ ∃ d ∈ commandsOf parser c, (matchWithin parser left d).isSome := by
  rw [matchWithin]
  split_ifs with h
  · simp [h]
  · simp [h, findSome?_isSome_iff]

/-- Fewer levels find no less. -/
lemma isSome_of_succ (h : (matchWithin parser (left + 1) c).isSome) :
    (matchWithin parser left c).isSome := by
  induction left generalizing c with
  | zero => rfl
  | succ left ih =>
    rw [isSome_succ_iff] at h ⊢
    exact h.imp_right fun ⟨d, hd, h⟩ => ⟨d, hd, ih h⟩

lemma isSome_of_le {more : ℕ} (hle : left ≤ more) (h : (matchWithin parser more c).isSome) :
    (matchWithin parser left c).isSome := by
  induction hle with
  | refl => exact h
  | step _ ih => exact ih (isSome_of_succ h)

lemma parseShellLcLiteralCommands_eq_none {program : String} {args : List String}
    (h : isShell program = false) :
    parseShellLcLiteralCommands parser (program :: args) = none := by
  unfold parseShellLcLiteralCommands
  split <;> simp_all

/-- What `env` would skip does not begin a dangerous command. -/
lemma begins_of_isSome {word : String} (hword : word ∈ c.head?) (heq : '=' ∉ word.toList)
    (h : (matchWithin parser (left + 1) c).isSome) : Begins word := by
  refine begins heq fun hoption => ?_
  have hkeys : ∀ word ∈ ["--", "-i", "--ignore-environment"], isShell word = false ∧
      ∀ name ∈ ["rm", "sudo", "env", "trap"], executableNameLookupKey word ≠ some name := by decide
  obtain ⟨hshell, hkey⟩ := hkeys word hoption
  obtain ⟨rest, rfl⟩ := head?_eq_some_iff.mp hword
  rw [isSome_succ_iff] at h
  simp [isForcedRm, commandsOf, parseShellLcLiteralCommands_eq_none hshell] at h hkey
  simp [hkey] at h

lemma Wrapper.Wf.begins (hw : w.Wf) : ∀ word ∈ (w.wrap d).head?, Begins word := by
  have hoptions : ∀ word ∈ ["--", "-i", "--ignore-environment"], isShell word = false ∧
      ∀ name ∈ ["sudo", "env", "trap"], executableNameLookupKey word ≠ some name := by decide
  have hcalls {program name : String} (hname : name ∈ ["sudo", "env", "trap"])
      (h : Calls program name) : Begins program :=
    CommandSafety.begins h.2 fun hmem => (hoptions program hmem).2 name hname h.1
  cases w with
  | sudoing program =>
    rintro word ⟨⟩
    exact hcalls (by decide) hw
  | env program options dashes =>
    rintro word ⟨⟩
    exact hcalls (by decide) hw.1
  | shell program flag script =>
    rintro word ⟨⟩
    refine CommandSafety.begins hw.2.1 fun hmem => ?_
    exact absurd ((hoptions program hmem).1.symm.trans hw.1) (by decide)
  | trap program dashes action conditions =>
    rintro word ⟨⟩
    exact hcalls (by decide) hw.1

lemma envCommand_append {options dashes : List String}
    (hoptions : ∀ arg ∈ options, isSkipped arg = true)
    (hdashes : dashes = [] ∨ dashes = ["--"]) (hd : ∀ word ∈ d.head?, Begins word) :
    envCommand (options ++ (dashes ++ d)) = d := by
  induction options with
  | nil =>
    obtain rfl | rfl := hdashes
    · cases d with
      | nil => rfl
      | cons word rest => simp [envCommand, (hd word rfl).1, (hd word rfl).2]
    · simp [envCommand]
  | cons arg options ih =>
    obtain ⟨harg, hoptions⟩ := forall_mem_cons.mp hoptions
    have hne : arg ≠ "--" := by
      rintro rfl
      exact absurd harg (by decide)
    rw [cons_append, envCommand, if_neg hne, if_pos harg, ih hoptions]

/-- Where the search goes on below a wrapper. -/
def Wrapper.runs (parser : String → Option (List (List String))) (d : List String) :
    Wrapper → List (List String)
  | sudoing _ | env .. => [d]
  | shell _ _ script => (parser script).getD []
  | trap _ _ action _ => if action.toList.head? = some '-' then [] else [["sh", "-c", action]]

lemma Wrapper.Wf.commandsOf_wrap (hw : w.Wf) (hd : ∀ word ∈ d.head?, Begins word) :
    commandsOf parser (w.wrap d) = w.runs parser d := by
  cases w with
  | sudoing program =>
    have hnone : parseShellLcLiteralCommands parser (program :: d) = none :=
      parseShellLcLiteralCommands_eq_none (isShell_eq_false (by decide) hw.1)
    simp [wrap, runs, commandsOf, hw.1, hnone]
  | env program options dashes =>
    have hnone (args : List String) : parseShellLcLiteralCommands parser (program :: args) = none :=
      parseShellLcLiteralCommands_eq_none (isShell_eq_false (by decide) hw.1.1)
    have henv : envCommand (options ++ ((if dashes then ["--"] else []) ++ d)) = d :=
      envCommand_append hw.2 (by cases dashes <;> simp) hd
    simp [wrap, runs, commandsOf, hw.1.1, hnone, henv]
  | shell program flag script =>
    have hkey (name : String) (hname : name ∈ ["rm", "sudo", "env", "trap"]) :
        executableNameLookupKey program ≠ some name := fun hkey =>
      absurd ((isShell_eq_false hname hkey).symm.trans hw.1) (by decide)
    simp [wrap, runs, commandsOf, hkey, parseShellLcLiteralCommands, hw.1, hw.2.2]
  | trap program dashes action conditions =>
    have hnone (args : List String) : parseShellLcLiteralCommands parser (program :: args) = none :=
      parseShellLcLiteralCommands_eq_none (isShell_eq_false (by decide) hw.1.1)
    have haction : trapAction ((if dashes then ["--"] else []) ++ action :: conditions) =
        if action.toList.head? = some '-' then none else some action := by
      cases dashes with
      | true => simp [trapAction, Option.filter]
      | false =>
        have hne : action ≠ "--" := by
          rintro rfl
          exact hw.2 rfl rfl
        simp [trapAction, hne, Option.filter]
    by_cases hdash : action.toList.head? = some '-' <;>
      simp [wrap, runs, commandsOf, hw.1.1, hnone, haction, hdash]

lemma Wrapper.Wf.isForcedRm_wrap (hw : w.Wf) : isForcedRm (w.wrap d) = false := by
  cases w with
  | sudoing program => simp [wrap, isForcedRm, hw.1]
  | env program options dashes => simp [wrap, isForcedRm, hw.1.1]
  | shell program flag script =>
    have hkey : executableNameLookupKey program ≠ some "rm" := fun hkey =>
      absurd ((isShell_eq_false (by decide) hkey).symm.trans hw.1) (by decide)
    simp [wrap, isForcedRm, hkey]
  | trap program dashes action conditions => simp [wrap, isForcedRm, hw.1.1]

/-- One level of the search. -/
lemma Wrapper.Wf.isSome_wrap_iff (hw : w.Wf) (hd : ∀ word ∈ d.head?, Begins word) :
    (matchWithin parser (left + 1) (w.wrap d)).isSome ↔
      ∃ e ∈ w.runs parser d, (matchWithin parser left e).isSome := by
  simp [isSome_succ_iff, hw.isForcedRm_wrap, hw.commandsOf_wrap hd]

lemma begins_nested (hws : ∀ w ∈ ws, w.Wf) (hc : ∀ word ∈ c.head?, Begins word) :
    ∀ word ∈ (nested c ws).head?, Begins word := by
  cases ws with
  | nil => exact hc
  | cons w ws => exact (hws w mem_cons_self).begins

lemma wf_sh (action : String) : (Wrapper.shell "sh" "-c" action).Wf :=
  ⟨by decide, by decide, .inr rfl⟩

/-- The search gets down to the command where no action with a dash stops it. -/
lemma isSome_of_clear (hws : ∀ w ∈ ws, w.Wf) (hbegins : ∀ word ∈ c.head?, Begins word)
    (hreads : Reads parser c ws) (hc : (matchWithin parser 9 c).isSome) (hclear : Clear left ws)
    (hle : left ≤ 9) : (matchWithin parser left (nested c ws)).isSome := by
  induction ws generalizing left with
  | nil => exact isSome_of_le hle hc
  | cons w ws ih =>
    cases left with
    | zero => rfl
    | succ left =>
      obtain ⟨hdash, hclear⟩ := hclear.resolve_left (Nat.succ_ne_zero left)
      obtain ⟨hw, hws⟩ := forall_mem_cons.mp hws
      have hd := begins_nested hws hbegins
      have hrest := ih hws (fun w rest h => hreads w rest (h.trans (suffix_cons ..))) hclear
        (by omega)
      have hscript := hreads w ws suffix_rfl
      rw [nested, hw.isSome_wrap_iff hd]
      cases w with
      | sudoing | env => exact ⟨_, mem_singleton_self _, hrest⟩
      | shell program flag script =>
        obtain ⟨commands, hparse, hmem⟩ := hscript script rfl
        exact ⟨_, by simpa [Wrapper.runs, hparse] using hmem, hrest⟩
      | trap program dashes action conditions =>
        have hplain : action.toList.head? ≠ some '-' := hdash
        rw [Wrapper.runs, if_neg hplain]
        refine ⟨_, mem_singleton_self _, ?_⟩
        cases left with
        | zero => rfl
        | succ left =>
          obtain ⟨commands, hparse, hmem⟩ := hscript action rfl
          exact ((wf_sh action).isSome_wrap_iff hd).mpr
            ⟨_, by simpa [Wrapper.runs, hparse] using hmem, hrest⟩

lemma clear_zero (ws : List Wrapper) : Clear 0 ws := by
  cases ws with
  | nil => trivial
  | cons w ws => exact .inl rfl

/-- Where nothing else is in the scripts, the search stops at an action with a dash. -/
lemma clear_of_isSome (hws : ∀ w ∈ ws, w.Wf) (hbegins : ∀ word ∈ c.head?, Begins word)
    (honly : ReadsOnly parser c ws) (h : (matchWithin parser left (nested c ws)).isSome) :
    Clear left ws := by
  induction ws generalizing left with
  | nil => trivial
  | cons w ws ih =>
    cases left with
    | zero => exact .inl rfl
    | succ left =>
      obtain ⟨hw, hws⟩ := forall_mem_cons.mp hws
      have hd := begins_nested hws hbegins
      have hrest {left : ℕ} := @ih left hws fun w rest h => honly w rest (h.trans (suffix_cons ..))
      have hscript := honly w ws suffix_rfl
      rw [nested, hw.isSome_wrap_iff hd] at h
      obtain ⟨e, he, h⟩ := h
      right
      cases w with
      | sudoing | env =>
        obtain rfl := mem_singleton.mp he
        exact ⟨id, hrest h⟩
      | shell program flag script =>
        rw [Wrapper.runs, hscript script rfl] at he
        obtain rfl := mem_singleton.mp he
        exact ⟨id, hrest h⟩
      | trap program dashes action conditions =>
        rw [Wrapper.runs] at he
        split_ifs at he with hdash
        · cases he
        · obtain rfl := mem_singleton.mp he
          refine ⟨hdash, ?_⟩
          cases left with
          | zero => exact clear_zero ws
          | succ left =>
            obtain ⟨e, he, h⟩ := ((wf_sh action).isSome_wrap_iff hd).mp h
            rw [Wrapper.runs, hscript action rfl] at he
            obtain rfl := mem_singleton.mp he
            exact hrest h

/-- Different scripts may be read each for itself. -/
lemma exists_readsOnly (c : List String) (hnodup : (ws.filterMap Wrapper.script).Nodup) :
    ∃ parser, ReadsOnly parser c ws := by
  induction ws with
  | nil => exact ⟨fun _ => none, fun w rest h => by simp at h⟩
  | cons w ws ih =>
    obtain ⟨parser, honly⟩ := ih (hnodup.sublist ((sublist_cons_self ..).filterMap _))
    refine ⟨fun script => if w.script = some script then some [nested c ws] else parser script,
      fun w' rest h script hscript => ?_⟩
    rcases suffix_cons_iff.mp h with heq | h
    · obtain ⟨rfl, rfl⟩ := cons.inj heq
      exact if_pos hscript
    · have hmem : script ∈ ws.filterMap Wrapper.script :=
        mem_filterMap.mpr ⟨w', h.subset mem_cons_self, hscript⟩
      have hne : w.script ≠ some script := fun hw => by
        rw [filterMap_cons_some hw, nodup_cons] at hnodup
        exact hnodup.1 hmem
      exact (if_neg hne).trans (honly w' rest h script hscript)

/-- Dangerous commands are found below wrappers, whatever the parser, if no trap action with a dash
lies within the levels searched; and, if no script stands in two places, only then. -/
theorem found_iff_clear (hws : ∀ w ∈ ws, w.Wf) :
    (Clear 9 ws → Found ws) ∧
      ((ws.filterMap Wrapper.script).Nodup → (Found ws ↔ Clear 9 ws)) := by
  have hfound : Clear 9 ws → Found ws := fun hclear parser c hreads hc heq =>
    isSome_of_clear hws (fun word hword => begins_of_isSome hword (heq word hword) hc) hreads hc
      hclear le_rfl
  refine ⟨hfound, fun hnodup => ⟨fun h => ?_, hfound⟩⟩
  obtain ⟨parser, honly⟩ := exists_readsOnly ["rm", "-f"] hnodup
  refine clear_of_isSome hws (by simp [Begins, isSkipped]) honly
    (h parser ["rm", "-f"] (fun w rest hrest script hscript => ?_) rfl (by simp))
  exact ⟨_, honly w rest hrest script hscript, mem_singleton_self _⟩

/-- Behind nine levels an action with a dash does not matter. -/
theorem found_below_nine_levels :
    Found (replicate 9 (.sudoing "sudo") ++ [.trap "trap" true "-x;rm -f x" ["EXIT"]]) ∧
      ¬ Found [.trap "trap" true "-x;rm -f x" ["EXIT"]] := by
  have hsudo : Calls "sudo" "sudo" := ⟨by decide, by decide⟩
  have htrap : (Wrapper.trap "trap" true "-x;rm -f x" ["EXIT"]).Wf :=
    ⟨⟨by decide, by decide⟩, nofun⟩
  refine ⟨(found_iff_clear ?_).1 ?_, fun h => ?_⟩
  · intro w hw
    rcases mem_append.mp hw with hw | hw
    · rw [eq_of_mem_replicate hw]
      exact hsudo
    · rw [mem_singleton.mp hw]
      exact htrap
  · simp [Clear, Wrapper.levels, Wrapper.Dashed, replicate]
  · have hclear := ((found_iff_clear (by simpa using htrap)).2 (by decide)).mp h
    simp [Clear, Wrapper.Dashed] at hclear

/-- A script is a list of commands of words. -/
def wordParser (script : String) : Option (List (List String)) :=
  some ((splitAtChars (· == ';') script).map (splitAtChars (· == ' ')))

/-- An action that begins with a dash is not looked into, also behind two dashes. -/
theorem dash_action_not_found :
    wordParser "-x;rm -f x" = some [["-x"], ["rm", "-f", "x"]] ∧
      (dangerousCommandMatch wordParser ["rm", "-f", "x"]).isSome ∧
      dangerousCommandMatch wordParser ["trap", "--", "-x;rm -f x", "EXIT"] = none := by
  decide

end ExperienceCodex.CommandSafety

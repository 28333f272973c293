import ExperienceCodex.FileEffects
import ExperienceCodex.Induce
import ExperienceCodex.LocalGate

/-!
# The table of effects

The postconditions of a workflow are the union of the effects of its steps, without regard to their
order.  They all hold after every step exactly when no step undoes what an earlier one has
established, and nothing is moved to where it is.
-/

namespace ExperienceCodex

open List Text FileTree Programs FileFacts

/-- A path that is written as the guard reads it. -/
def CleanPath (path : String) : Prop := guardNames path ≠ [] ∧ relText (guardNames path) = path

/-- All paths of a step are. -/
def CleanStep (step : WorkflowStep) : Prop :=
  ∀ key ∈ ["path", "source", "target"], ∀ path, textArg step key = some path → CleanPath path

/-- Content that the table asserts: literal text of moderate size. -/
def assertable (content : String) : Bool :=
  !(contains content "$\x7b" || decide (256 < content.utf8ByteSize))

/-- The facts that the postconditions of a step are about. -/
def asserts (step : WorkflowStep) : List (Fact FileName ByteArray) :=
  let present (key : String) := ((placeArg step key).map Fact.present).toList
  let absent (key : String) := ((placeArg step key).map Fact.absent).toList
  if step.action = "move_file" then absent "source" ++ present "target"
  else if step.action = "copy_file" then present "target"
  else if step.action = "delete_file" then absent "path"
  else if step.action = "mkdir" ∨ step.action = "append_file" then present "path"
  else if step.action = "write_file" then
    match placeArg step "path", textArg step "content" with
    | none, _ => []
    | some l, none => [.present l]
    | some l, some content =>
      if assertable content then [.present l, .content l content.toUTF8] else [.present l]
  else []

section
variable {layout : Layout} {cwd : Place} {t : Tree FileName ByteArray} {path : String}

lemma pathJoin_clean (hpath : CleanPath path) :
    pathJoin (render layout.root) path = render (layout.root ++ guardNames path) := by
  conv_lhs => rw [← hpath.2]
  exact pathJoin_relText layout.root hpath.1

lemma observes_fileExists (h : layout.Plain t) (hpath : CleanPath path) (expected : Bool) :
    observes cwd ⟨render layout.root⟩ t (fileExists path expected) = .true ↔
      (workOf layout t (guardNames path)).isSome = expected := by
  have hex : Host.pathExists { tree := t, cwd } (render (layout.root ++ guardNames path)) =
      (t.node (layout.root ++ guardNames path)).isSome := Host.pathExists_render (h.noLinks _)
  rw [observes, Predicate.probe_eq_true_iff]
  simp only [fileExists, localProbe, String.append_assoc, file_key_ne_cwd, if_false,
    stripStart_append, stripEnd_append, hostFs, pathJoin_clean hpath, hex, Option.some.injEq,
    exists_eq_left', Json.jsonEq, beq_iff_eq]

lemma observes_fileContent (h : layout.Plain t) (hpath : CleanPath path) (content : String) :
    observes cwd ⟨render layout.root⟩ t (fileContent path content) = .true ↔
      workOf layout t (guardNames path) = some (.file content.toUTF8) := by
  have hread (text : String) :
      Host.readToString { tree := t, cwd } (render (layout.root ++ guardNames path)) = .ok text ↔
        t.node (layout.root ++ guardNames path) = some (.file text.toUTF8) :=
    Host.readToString_render (h.noLinks _)
  rw [observes, Predicate.probe_eq_true_iff]
  simp only [fileContent, localProbe, String.append_assoc, file_key_ne_cwd, if_false,
    stripStart_append, stripEnd_content_exists, stripEnd_append, hostFs, pathJoin_clean hpath]
  cases hfound : Host.readToString { tree := t, cwd }
      (render (layout.root ++ guardNames path)) with
  | error error =>
    have hnot := mt (hread content).mpr (by rw [hfound]; simp)
    simpa using hnot
  | ok text =>
    have hnode := (hread text).mp hfound
    rw [workOf, hnode]
    simp only [Option.some.injEq, exists_eq_left', Json.jsonEq, beq_iff_eq, Node.file.injEq]
    constructor
    · rintro rfl
      rfl
    · intro hbytes
      have hsame := fromUTF8?_eq_some_iff.mpr hbytes
      rw [fromUTF8?_eq_some_iff.mpr rfl] at hsame
      exact Option.some.inj hsame

variable {step : WorkflowStep} {key : String}

/-- The predicate and the fact about an argument of a step. -/
lemma argument_exists_iff (h : layout.Plain t)
    (hclean : ∀ path, textArg step key = some path → CleanPath path) (expected : Bool) :
    (∀ p ∈ ((textArg step key).map fun file => fileExists file expected).toList,
        observes cwd ⟨render layout.root⟩ t p = .true) ↔
      ∀ fact ∈ ((placeArg step key).map (bif expected then Fact.present else Fact.absent)).toList,
        fact.Holds (workOf layout t) := by
  cases htext : textArg step key with
  | none => simp [placeArg, htext]
  | some path =>
    have hiff : observes cwd _ t (fileExists path expected) = .true ↔ _ :=
      observes_fileExists h (hclean path htext) expected
    cases expected <;>
      simpa [placeArg, htext, Fact.Holds, Option.isSome_iff_ne_none] using hiff

lemma stepEffects_hold_iff (h : layout.Plain t) (hclean : CleanStep step) :
    (∀ p ∈ (stepEffects step).2,
        observes cwd ⟨render layout.root⟩ t p = .true) ↔
      ∀ fact ∈ asserts step, fact.Holds (workOf layout t) := by
  have hpath := hclean "path" (by simp)
  have hsrc := hclean "source" (by simp)
  have htgt := hclean "target" (by simp)
  unfold stepEffects asserts
  by_cases hmove : step.action = "move_file"
  · simp only [hmove, if_true, forall_mem_append]
    exact and_congr (argument_exists_iff h hsrc false) (argument_exists_iff h htgt true)
  by_cases hcopy : step.action = "copy_file"
  · simp only [hcopy, if_true, String.reduceEq, if_false]
    exact argument_exists_iff h htgt true
  by_cases hdel : step.action = "delete_file"
  · simp only [hdel, if_true, String.reduceEq, if_false]
    exact argument_exists_iff h hpath false
  by_cases hmake : step.action = "mkdir" ∨ step.action = "append_file"
  · simp only [hmove, hcopy, hdel, if_false, hmake, if_true]
    exact argument_exists_iff h hpath true
  by_cases hwrite : step.action = "write_file"
  · simp only [hwrite, if_true, String.reduceEq, if_false, or_self, textArg]
    cases htext : (step.args.get "path").bind Json.asStr with
    | none => simp [placeArg, textArg, htext]
    | some path =>
      have hex : observes cwd _ t (fileExists path true) = .true ↔ _ :=
        observes_fileExists h (hpath path htext) true
      have hplace : placeArg step "path" = some (guardNames path) := by
        simp [placeArg, textArg, htext]
      rw [hplace]
      cases (step.args.get "content").bind Json.asStr with
      | none => simpa [Fact.Holds, Option.isSome_iff_ne_none] using hex
      | some content =>
        have hcont : observes cwd _ t (fileContent path content) = .true ↔ _ :=
          observes_fileContent h (hpath path htext) content
        by_cases hlit : (contains content "$\x7b" || decide (256 < content.utf8ByteSize)) = true
        · simpa [assertable, hlit, Fact.Holds, Option.isSome_iff_ne_none] using hex
        · simp only [assertable, hlit, Bool.not_false, if_true, Bool.false_eq_true, if_false,
            forall_mem_cons, Fact.Holds, hex, hcont, Option.isSome_iff_ne_none]
          simp
  · by_cases hread : step.action = "read_file"
    · simp [hread]
    · simp [hmove, hcopy, hdel, hmake, hwrite, hread]

end

/-- A predicate that expects a truth value or a text. -/
def Predicate.Simple (predicate : Predicate) : Prop :=
  (∃ b, predicate.expected = .bool b) ∨ ∃ s, predicate.expected = .string s

variable {step : WorkflowStep}

lemma simple_of_mem_stepEffects {p : Predicate}
    (h : p ∈ (stepEffects step).2) : p.Simple := by
  have hex (path : String) (expected : Bool) : (fileExists path expected).Simple :=
    .inl ⟨expected, rfl⟩
  have hcont (path content : String) : (fileContent path content).Simple :=
    .inr ⟨content, rfl⟩
  have hoption (arg : Option String) (expected : Bool)
      (hmem : p ∈ (arg.map fun file => fileExists file expected).toList) :
      p.Simple := by
    cases arg with
    | none => simp at hmem
    | some path =>
      simp only [Option.map_some, Option.toList_some, mem_singleton] at hmem
      rw [hmem]
      exact hex path expected
  unfold stepEffects at h
  dsimp only at h
  split_ifs at h
  · rcases mem_append.mp h with h | h
    · exact hoption _ _ h
    · exact hoption _ _ h
  · exact hoption _ _ h
  · exact hoption _ _ h
  · exact hoption _ _ h
  · split at h
    · simp at h
    · rw [mem_singleton.mp h]
      exact hex _ _
    · split_ifs at h
      · rw [mem_singleton.mp h]
        exact hex _ _
      · rcases mem_cons.mp h with rfl | h
        · exact hex _ _
        · rw [mem_singleton.mp h]
          exact hcont _ _
  · simp at h
  · simp at h

/-- A simple predicate that is pushed is in the list, and nothing else is new. -/
lemma mem_pushUnique {ps : List Predicate} {predicate other : Predicate}
    (hsimple : predicate.Simple) :
    other ∈ pushUnique ps predicate ↔ other ∈ ps ∨ other = predicate := by
  unfold pushUnique
  split_ifs with hany
  · obtain ⟨old, hmem, hsame⟩ := any_eq_true.mp hany
    rw [Bool.and_eq_true, beq_iff_eq] at hsame
    have hexpected : old.expected = predicate.expected := by
      rcases hsimple with ⟨b, hb⟩ | ⟨text, htext⟩
      · rw [hb] at hsame ⊢
        cases hval : old.expected <;> simp_all [Json.jsonEq]
      · rw [htext] at hsame ⊢
        cases hval : old.expected <;> simp_all [Json.jsonEq]
    have heq : old = predicate := by
      cases old
      cases predicate
      simp_all
    constructor
    · exact .inl
    · rintro (h | rfl)
      · exact h
      · exact heq ▸ hmem
  · simp

lemma mem_foldl_pushUnique {start new : List Predicate} {other : Predicate}
    (hsimple : ∀ predicate ∈ new, predicate.Simple) :
    other ∈ new.foldl pushUnique start ↔ other ∈ start ∨ other ∈ new := by
  induction new generalizing start with
  | nil => simp
  | cons predicate rest ih =>
    rw [foldl_cons, ih (forall_mem_of_forall_mem_cons hsimple),
      mem_pushUnique (hsimple predicate mem_cons_self), mem_cons, or_assoc]

lemma mem_effectsFor_post {workflow : List WorkflowStep} {predicate : Predicate} :
    predicate ∈ (effectsFor workflow).2.1 ↔
      ∃ step ∈ workflow, predicate ∈ (stepEffects step).2 := by
  unfold effectsFor
  rw [mem_foldl_pushUnique]
  · simp
  · intro p hp
    obtain ⟨step, -, hmem⟩ := mem_flatMap.mp hp
    exact simple_of_mem_stepEffects hmem

lemma fileOp_cases {work : UndoLog.Nodes FileName ByteArray}
    {op : Op FileName ByteArray} (hop : fileOp work step = some op) :
    (∃ l content, op = .put l content ∧ asserts step ⊆ [.present l, .content l content]) ∨
      (∃ l, op = .makeDir l ∧ asserts step = [.present l]) ∨
      (∃ src target, op = .move src target ∧
        asserts step = [.absent src, .present target]) ∨
      (∃ l, op = .remove l ∧ asserts step = [.absent l]) ∨
      op = .read ∧ asserts step = [] := by
  unfold fileOp at hop
  by_cases hwrite : step.action = "write_file"
  · simp only [hwrite, if_true, Option.bind_eq_bind, Option.bind_eq_some_iff] at hop
    obtain ⟨l, hl, content, hcont, hop⟩ := hop
    cases hop
    refine .inl ⟨l, _, rfl, ?_⟩
    by_cases hlit : assertable content = true
    · simp [asserts, hwrite, hl, hcont, hlit]
    · simp [asserts, hwrite, hl, hcont, hlit]
  by_cases happend : step.action = "append_file"
  · simp only [happend, if_true, String.reduceEq, if_false, Option.bind_eq_bind,
      Option.bind_eq_some_iff] at hop
    obtain ⟨l, hl, content, hcont, hop⟩ := hop
    cases hop
    exact .inl ⟨l, _, rfl, by simp [asserts, happend, hl]⟩
  by_cases hmkdir : step.action = "mkdir"
  · simp only [hmkdir, if_true, String.reduceEq, if_false, Option.bind_eq_bind,
      Option.bind_eq_some_iff] at hop
    obtain ⟨l, hl, hop⟩ := hop
    cases hop
    exact .inr (.inl ⟨l, rfl, by simp [asserts, hmkdir, hl]⟩)
  by_cases hcopy : step.action = "copy_file"
  · simp only [hcopy, if_true, String.reduceEq, if_false, Option.bind_eq_bind,
      Option.bind_eq_some_iff] at hop
    obtain ⟨src, -, target, htgt, hop⟩ := hop
    cases hop
    exact .inl ⟨target, _, rfl, by simp [asserts, hcopy, htgt]⟩
  by_cases hmove : step.action = "move_file"
  · simp only [hmove, if_true, String.reduceEq, if_false, Option.bind_eq_bind,
      Option.bind_eq_some_iff] at hop
    obtain ⟨src, hsrc, target, htgt, hop⟩ := hop
    cases hop
    exact .inr (.inr (.inl ⟨src, target, rfl, by simp [asserts, hmove, hsrc, htgt]⟩))
  by_cases hdel : step.action = "delete_file"
  · simp only [hdel, if_true, String.reduceEq, if_false, Option.bind_eq_bind,
      Option.bind_eq_some_iff] at hop
    obtain ⟨l, hl, hop⟩ := hop
    cases hop
    exact .inr (.inr (.inr (.inl ⟨l, rfl, by simp [asserts, hdel, hl]⟩)))
  · simp only [hwrite, happend, hmkdir, hcopy, hmove, hdel, if_false] at hop
    cases hop
    exact .inr (.inr (.inr (.inr ⟨rfl, by
      simp [asserts, hwrite, happend, hmkdir, hcopy, hmove, hdel]⟩)))

/-- After an operation its step's own facts hold, unless it moves something to where it is. -/
lemma asserts_hold_iff {work : UndoLog.Nodes FileName ByteArray}
    {op : Op FileName ByteArray} (hop : fileOp work step = some op) (hfits : op.Fits work) :
    (∀ fact ∈ asserts step, fact.Holds (op.apply work)) ↔ op.Moves := by
  rw [← Op.gives_hold_iff hfits]
  rcases fileOp_cases hop with ⟨l, content, rfl, hsub⟩ | ⟨l, rfl, heq⟩ | ⟨src, target, rfl, heq⟩ |
    ⟨l, rfl, heq⟩ | ⟨rfl, heq⟩
  · have hall := (Op.gives_hold_iff hfits).mpr trivial
    exact iff_of_true (fun fact hfact => hall fact (hsub hfact)) hall
  · rw [heq]
    rfl
  · rw [heq]
    rfl
  · rw [heq]
    rfl
  · rw [heq]
    rfl

section
variable {layout : Layout} {context : FileContext} {spawner : Spawner}

/-- The step ends without an error. -/
def Succeeds (spawner : Spawner) (context : FileContext) (s : FileState) (step : WorkflowStep) :
    Prop :=
  ∃ execution after, (performStep spawner context step).run s = .ok execution after

instance (s : FileState) (step : WorkflowStep) : Decidable (Succeeds spawner context s step) :=
  match h : (performStep spawner context step).run s with
  | .ok execution after => .isTrue ⟨execution, after, h⟩
  | .error _ _ => .isFalse fun ⟨_, _, hok⟩ => by simp [h] at hok

lemma stepFiles_did (hfits : layout.Fits context) {s : FileState} (hplain : layout.Plain s.tree)
    (hstep : IsFileAction step) (hok : Succeeds spawner context s step) :
    ∃ op, fileOp (workOf layout s.tree) step = some op ∧
      Did layout s op (stepFiles spawner context s step) := by
  obtain ⟨execution, after, hrun⟩ := hok
  have hfinal : stepFiles spawner context s step = after := by simp [stepFiles, finalState, hrun]
  rw [hfinal]
  exact (performStep_did step hfits hplain spawner hstep).of_ok hrun

variable {s : FileState} {steps : List WorkflowStep}

/-- The state after some of the steps. -/
def stateAt (spawner : Spawner) (context : FileContext) (s : FileState)
    (steps : List WorkflowStep) (k : ℕ) : FileState :=
  Runs.run (stepFiles spawner context) s (steps.take k)

/-- The step at a position does not undo what the steps before it have asserted, and moves nothing
to where it is. -/
def Builds (spawner : Spawner) (context : FileContext) (layout : Layout) (s : FileState)
    (steps : List WorkflowStep) (i : ℕ) : Prop :=
  ∀ step op, steps[i]? = some step →
    fileOp (workOf layout (stateAt spawner context s steps i).tree) step = some op →
    op.Moves ∧ ∀ earlier ∈ steps.take i, ∀ fact ∈ asserts earlier,
      op.Keeps (workOf layout (stateAt spawner context s steps i).tree) fact

/-- All that the first steps assert holds after them. -/
def Asserted (spawner : Spawner) (context : FileContext) (layout : Layout) (s : FileState)
    (steps : List WorkflowStep) (k : ℕ) : Prop :=
  ∀ step ∈ steps.take k, ∀ fact ∈ asserts step,
    fact.Holds (workOf layout (stateAt spawner context s steps k).tree)

section
variable (hfits : layout.Fits context)
include hfits

lemma stateAt_plain (hplain : layout.Plain s.tree)
    (hfile : ∀ step ∈ steps, IsFileAction step)
    (hok : Runs.Along (stepFiles spawner context) (Succeeds spawner context) s steps) (k : ℕ) :
    layout.Plain (stateAt spawner context s steps k).tree := by
  induction k with
  | zero => exact hplain
  | succ k ih =>
    by_cases hk : k < steps.length
    · have hdid := stepFiles_did hfits ih (hfile _ (getElem_mem hk)) (hok.at_step hk)
      obtain ⟨op, -, hdid⟩ := hdid
      rw [stateAt, Runs.run_take_succ _ _ hk]
      exact hdid.plain
    · rw [stateAt, take_of_length_le (by omega)] at ih ⊢
      exact ih

lemma asserted_succ_iff (hplain : layout.Plain s.tree)
    (hfile : ∀ step ∈ steps, IsFileAction step)
    (hok : Runs.Along (stepFiles spawner context) (Succeeds spawner context) s steps) {k : ℕ}
    (hk : k < steps.length) (hbefore : Asserted spawner context layout s steps k) :
    Asserted spawner context layout s steps (k + 1) ↔ Builds spawner context layout s steps k := by
  obtain ⟨op, hop, hdid⟩ := stepFiles_did hfits (stateAt_plain hfits hplain hfile hok k)
    (hfile _ (getElem_mem hk)) (hok.at_step hk)
  have hafter : workOf layout (stateAt spawner context s steps (k + 1)).tree =
      op.apply (workOf layout (stateAt spawner context s steps k).tree) := by
    rw [← hdid.work, stateAt, Runs.run_take_succ _ _ hk]
    rfl
  have hown := asserts_hold_iff hop hdid.fits
  have hkept (step : WorkflowStep) (hmem : step ∈ steps.take k)
      (fact : Fact FileName ByteArray) (hfact : fact ∈ asserts step) :=
    Op.keeps_iff hdid.fits (hbefore step hmem fact hfact)
  have hbuilds : Builds spawner context layout s steps k ↔
      op.Moves ∧ ∀ earlier ∈ steps.take k, ∀ fact ∈ asserts earlier,
        op.Keeps (workOf layout (stateAt spawner context s steps k).tree) fact := by
    constructor
    · intro h
      exact h _ op (getElem?_eq_getElem hk) hop
    · intro h step other hstep hother
      rw [getElem?_eq_getElem hk, Option.some.injEq] at hstep
      rw [← hstep, hop, Option.some.injEq] at hother
      rw [← hother]
      exact h
  rw [hbuilds, ← hown, Asserted, take_succ_eq_append_getElem hk, hafter]
  simp only [mem_append, mem_singleton, or_imp, forall_and, forall_eq]
  rw [and_comm]
  refine and_congr_right fun _ => ?_
  exact forall₂_congr fun step hmem => forall₂_congr fun fact hfact => hkept step hmem fact hfact

end

/-- The postconditions of every part of a run of file steps hold after it exactly when no step
undoes what an earlier one has asserted, and none moves something to where it is. -/
theorem effects_hold_iff (hfits : layout.Fits context) (hplain : layout.Plain s.tree)
    (hfile : ∀ step ∈ steps, IsFileAction step) (hclean : ∀ step ∈ steps, CleanStep step)
    (hok : Runs.Along (stepFiles spawner context) (Succeeds spawner context) s steps) :
    (∀ k ≤ steps.length, ∀ predicate ∈ (effectsFor (steps.take k)).2.1,
        observes context.cwd ⟨render layout.root⟩
          (stateAt spawner context s steps k).tree predicate = .true) ↔
      ∀ i < steps.length, Builds spawner context layout s steps i := by
  have hasserted (k : ℕ) : (∀ p ∈ (effectsFor (steps.take k)).2.1,
      observes context.cwd ⟨render layout.root⟩
        (stateAt spawner context s steps k).tree p = .true) ↔
      Asserted spawner context layout s steps k := by
    have hstate := stateAt_plain hfits hplain hfile hok k
    have hiff (step : WorkflowStep) (hmem : step ∈ steps.take k) :
        (∀ p ∈ (stepEffects step).2, observes context.cwd ⟨render layout.root⟩ _ p =
          .true) ↔ _ :=
      stepEffects_hold_iff hstate (hclean step (mem_of_mem_take hmem))
    constructor
    · intro hall step hmem
      exact (hiff step hmem).mp fun p hp => hall p (mem_effectsFor_post.mpr
        ⟨step, hmem, hp⟩)
    · intro hall p hp
      obtain ⟨step, hmem, hp⟩ := mem_effectsFor_post.mp hp
      exact (hiff step hmem).mpr (hall step hmem) p hp
  simp only [hasserted]
  constructor
  · intro hall i hi
    exact (asserted_succ_iff hfits hplain hfile hok hi (hall i hi.le)).mp (hall (i + 1) hi)
  · intro hbuilds k
    induction k with
    | zero =>
      intro _ step hmem
      simp at hmem
    | succ k ih =>
      intro hk
      exact (asserted_succ_iff hfits hplain hfile hok hk (ih (by omega))).mpr (hbuilds k hk)

end

section
variable {path content : String}

lemma textArg_writeStep_path : textArg (writeStep path content) "path" = some path := by
  simp [textArg, writeStep, Json.get, Json.asStr, lookup]

lemma textArg_writeStep_content : textArg (writeStep path content) "content" = some content := by
  simp [textArg, writeStep, Json.get, Json.asStr, lookup]

lemma fileOp_writeStep (work : UndoLog.Nodes FileName ByteArray) :
    fileOp work (writeStep path content) = some (.put (guardNames path) content.toUTF8) := by
  simp only [fileOp, placeArg, textArg_writeStep_path, textArg_writeStep_content]
  simp [writeStep]

lemma asserts_writeStep (hlit : assertable content = true) :
    asserts (writeStep path content) =
      [.present (guardNames path), .content (guardNames path) content.toUTF8] := by
  simp only [asserts, placeArg, textArg_writeStep_path, textArg_writeStep_content]
  simp [writeStep, hlit]

lemma cleanStep_writeStep (hpath : CleanPath path) : CleanStep (writeStep path content) := by
  intro key hkey named hnamed
  simp only [mem_cons, not_mem_nil, or_false] at hkey
  rcases hkey with rfl | rfl | rfl
  · rw [textArg_writeStep_path, Option.some.injEq] at hnamed
    rw [← hnamed]
    exact hpath
  · simp [textArg, writeStep, Json.get, lookup] at hnamed
  · simp [textArg, writeStep, Json.get, lookup] at hnamed

end

/-- The second write leaves nothing of what the first one has asserted, and both are asserted. -/
theorem second_write_breaks_effects :
    (effectsFor [writeStep "f" "1", writeStep "f" "2"]).1 = [] ∧
      Runs.Along (stepFiles noSpawner smallContext) (Succeeds noSpawner smallContext)
        { tree := smallTree } [writeStep "f" "1", writeStep "f" "2"] ∧
      fileContent "f" "1" ∈ (effectsFor [writeStep "f" "1", writeStep "f" "2"]).2.1 ∧
      observes smallContext.cwd ⟨render smallLayout.root⟩
        (stateAt noSpawner smallContext { tree := smallTree }
          [writeStep "f" "1", writeStep "f" "2"] 2).tree (fileContent "f" "1") = .false := by
  refine ⟨by decide +kernel, by decide +kernel, ?_, by decide +kernel⟩
  refine mem_effectsFor_post.mpr ⟨writeStep "f" "1", by simp, ?_⟩
  have hpath : ((writeStep "f" "1").args.get "path").bind Json.asStr = some "f" :=
    textArg_writeStep_path
  have hcont : ((writeStep "f" "1").args.get "content").bind Json.asStr = some "1" :=
    textArg_writeStep_content
  have hnot : (contains "1" "$\x7b" || decide (256 < "1".utf8ByteSize)) = false := by
    decide +kernel
  unfold stepEffects
  simp only [hpath, hcont, hnot]
  simp [writeStep]

/-- Writes to different files. -/
theorem effects_hold_small :
    Runs.Along (stepFiles noSpawner smallContext) (Succeeds noSpawner smallContext)
        { tree := smallTree } [writeStep "f" "1", writeStep "g" "2"] ∧
      ∀ k ≤ 2, ∀ predicate ∈ (effectsFor ([writeStep "f" "1", writeStep "g" "2"].take k)).2.1,
        observes smallContext.cwd ⟨render smallLayout.root⟩
          (stateAt noSpawner smallContext { tree := smallTree }
            [writeStep "f" "1", writeStep "g" "2"] k).tree predicate = .true := by
  have hf : CleanPath "f" := ⟨by decide +kernel, by decide +kernel⟩
  have hg : CleanPath "g" := ⟨by decide +kernel, by decide +kernel⟩
  have hfile : ∀ step ∈ [writeStep "f" "1", writeStep "g" "2"], IsFileAction step := by
    simp [IsFileAction, writeStep]
  have hclean : ∀ step ∈ [writeStep "f" "1", writeStep "g" "2"], CleanStep step := by
    intro step hstep
    simp only [mem_cons, not_mem_nil, or_false] at hstep
    rcases hstep with rfl | rfl
    · exact cleanStep_writeStep hf
    · exact cleanStep_writeStep hg
  have hok : Runs.Along (stepFiles noSpawner smallContext) (Succeeds noSpawner smallContext)
      { tree := smallTree } [writeStep "f" "1", writeStep "g" "2"] := by decide +kernel
  have hiff := effects_hold_iff smallContext_fits smallTree_plain hfile hclean hok
  refine ⟨hok, hiff.mpr ?_⟩
  unfold Builds
  generalize stateAt noSpawner smallContext { tree := smallTree }
    [writeStep "f" "1", writeStep "g" "2"] = states
  intro i hi step op hstep hop
  have hcases : i = 0 ∨ i = 1 := by
    rw [length_cons, length_cons, length_nil] at hi
    omega
  rcases hcases with rfl | rfl
  · rw [← Option.some.inj hstep, fileOp_writeStep, Option.some.injEq] at hop
    rw [← hop]
    exact ⟨trivial, by simp⟩
  · rw [← Option.some.inj hstep, fileOp_writeStep, Option.some.injEq] at hop
    rw [← hop]
    have hne : guardNames "f" ≠ guardNames "g" := by decide +kernel
    have hfirst : asserts (writeStep "f" "1") = _ := asserts_writeStep (by decide +kernel)
    exact ⟨trivial, by simp [hfirst, Op.Keeps, hne]⟩

end ExperienceCodex

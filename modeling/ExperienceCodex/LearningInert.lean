import ExperienceCodex.Gate
import ExperienceCodex.Learning
import ExperienceCodex.StoreRuns

/-!
# Learning is inert

Whatever a distiller returns and whatever was observed, the learning pipeline only appends
candidates.  A candidate is in no bucket of the matching index, so every proposal is answered
from the artifacts that were there before.
-/

namespace ExperienceCodex

open ExperienceStore

namespace Catalog

variable {α : Type} {key : α → String} {bucket : α → Option String}

lemma select_eq_of_append {c d : Catalog α String String} (hc : c.Wf key bucket)
    (hd : d.Wf key bucket) {added : List α} (hitems : d.items = c.items ++ added)
    (hadded : ∀ a ∈ added, bucket a = none) (tool : String) (p : α → Bool) :
    d.select tool p = c.select tool p := by
  have hnone : (added.filter fun a => decide (bucket a = some tool) && p a) = [] := by
    rw [List.filter_eq_nil_iff]
    intro a ha
    simp [hadded a ha]
  rw [hd.select_eq_filter, hc.select_eq_filter, hitems, List.filter_append, hnone, List.append_nil]

end Catalog

namespace ExperienceStore

/-- The second store has the artifacts of the first one, and then candidates. -/
structure OnlyCandidatesAdded (store learned : ExperienceStore) : Prop where
  experiences : ∃ added, learned.all = store.all ++ added ∧
    ∀ experience ∈ added, experience.status = .candidate
  templates : ∃ added, learned.templates.items = store.templates.items ++ added ∧
    ∀ template ∈ added, template.status = .candidate

lemma OnlyCandidatesAdded.refl (store : ExperienceStore) : OnlyCandidatesAdded store store :=
  ⟨⟨[], (List.append_nil _).symm, nofun⟩, ⟨[], (List.append_nil _).symm, nofun⟩⟩

lemma OnlyCandidatesAdded.trans {store middle learned : ExperienceStore}
    (first : OnlyCandidatesAdded store middle) (second : OnlyCandidatesAdded middle learned) :
    OnlyCandidatesAdded store learned := by
  obtain ⟨⟨es, hes, hec⟩, ts, hts, htc⟩ := first
  obtain ⟨⟨es', hes', hec'⟩, ts', hts', htc'⟩ := second
  refine ⟨⟨es ++ es', ?_, ?_⟩, ts ++ ts', ?_, ?_⟩
  · rw [hes', hes, List.append_assoc]
  · intro e hmem
    exact (List.mem_append.mp hmem).elim (hec e) (hec' e)
  · rw [hts', hts, List.append_assoc]
  · intro t hmem
    exact (List.mem_append.mp hmem).elim (htc t) (htc' t)

variable {store learned : ExperienceStore} (h : OnlyCandidatesAdded store learned)
  (hstore : store.Wf) (hlearned : learned.Wf) (floatText : F64 → String) (proposal : ActionProposal)
include h hstore hlearned

lemma OnlyCandidatesAdded.candidatesFor :
    learned.candidatesFor floatText proposal = store.candidatesFor floatText proposal := by
  obtain ⟨added, hitems, hcand⟩ := h.experiences
  refine Catalog.select_eq_of_append hstore.experiences hlearned.experiences hitems ?_ _ _
  intro e hmem
  simp [Experience.activeTool, hcand e hmem]

lemma OnlyCandidatesAdded.templatesFor :
    learned.templatesFor floatText proposal = store.templatesFor floatText proposal := by
  obtain ⟨added, hitems, hcand⟩ := h.templates
  refine Catalog.select_eq_of_append hstore.templates hlearned.templates hitems ?_ _ _
  intro t hmem
  simp [ExperienceTemplate.activeTool, hcand t hmem]

lemma OnlyCandidatesAdded.get {name : String} {e : Experience} (hget : store.get name = some e) :
    learned.get name = some e := by
  obtain ⟨added, hitems, -⟩ := h.experiences
  obtain ⟨hmem, hname⟩ := (hstore.experiences.lookup_eq_some_iff name e).mp hget
  have hall : e ∈ learned.all := hitems ▸ List.mem_append_left _ hmem
  exact (hlearned.experiences.lookup_eq_some_iff name e).mpr ⟨hall, hname⟩

end ExperienceStore

lemma sinkOnce_cases (round : RoundTrace) (terminalSuccess existingSameSignature : Bool)
    (store : ExperienceStore) (distiller : L1Distiller) :
    (sinkOnce round terminalSuccess existingSameSignature store distiller).2 = store ∨
      ∃ draft, distiller.distill round = some draft ∧
        (sinkOnce round terminalSuccess existingSameSignature store distiller).2 =
          (store.insert { draft with status := .candidate }).2 := by
  have hwrite : ∀ draft : Experience, (writeCandidate store draft).2 =
      (store.insert { draft with status := .candidate }).2 := by
    intro draft
    unfold writeCandidate
    split <;> simp_all
  simp only [sinkOnce]
  cases hneed : decideNecessity round terminalSuccess existingSameSignature with
  | reject reason => exact .inl rfl
  | cleanShort | dirty =>
    simp only
    split_ifs
    all_goals first
      | exact .inl rfl
      | cases hdistill : distiller.distill round with
        | none => exact .inl rfl
        | some draft =>
          simp only
          cases validateToolBoundary draft with
          | error problem => exact .inl rfl
          | ok _ =>
            refine .inr ⟨draft, rfl, ?_⟩
            rw [← hwrite draft]
            obtain ⟨r, after⟩ := writeCandidate store draft
            cases r <;> rfl

/-- No qualification passes what the deterministic distiller has drafted, as it is. -/
theorem sinkOnce_drafts_unqualified (store : ExperienceStore)
    (rounds : List (RoundTrace × Bool × Bool)) :
    let sink store round := (sinkOnce round.1 round.2.1 round.2.2 store deterministicDistiller).2
    ∀ e ∈ (Runs.run sink store rounds).all,
      e ∈ store.all ∨ ∀ scratch resolve, qualify scratch resolve e ≠ .ok () := by
  intro sink
  refine Runs.run_induction (P := fun state : ExperienceStore => ∀ e ∈ state.all,
    e ∈ store.all ∨ ∀ scratch resolve, qualify scratch resolve e ≠ .ok ()) ?_ (fun _ => .inl) rounds
  intro state round hstate e hmem
  obtain heq | ⟨draft, hdraft, heq⟩ :=
    sinkOnce_cases round.1 round.2.1 round.2.2 state deterministicDistiller
  · exact hstate e (by simpa only [sink, heq] using hmem)
  simp only [sink, heq] at hmem
  rcases mem_insert hmem with hold | rfl
  · exact hstate e hold
  refine .inr fun scratch resolve hpass => ?_
  obtain ⟨workflow, -, hdraft⟩ := Option.bind_eq_some_iff.mp hdraft
  obtain ⟨first, -, hdraft⟩ := Option.bind_eq_some_iff.mp hdraft
  cases hdraft
  unfold qualify at hpass
  repeat' split at hpass
  case h_2 hpost => cases hpost
  all_goals cases hpass

namespace LearnOp

variable (isAlphanumeric : Char → Bool)

lemma next_inert {store : ExperienceStore} (h : store.Wf) (op : LearnOp) :
    (op.next isAlphanumeric store).Wf ∧
      OnlyCandidatesAdded store (op.next isAlphanumeric store) := by
  cases op with
  | sinkOnce round terminalSuccess old distiller =>
    rw [next]
    obtain heq | ⟨draft, -, heq⟩ := sinkOnce_cases round terminalSuccess old store distiller
    · rw [heq]
      exact ⟨h, .refl store⟩
    · rw [heq]
      refine ⟨h.insert _, ?_⟩
      obtain ⟨error, heq⟩ | ⟨-, -, heq⟩ := insert_cases store _
      · rw [heq]
        exact .refl store
      · rw [heq]
        exact ⟨⟨[_], rfl, List.forall_mem_singleton.mpr rfl⟩, [], (List.append_nil _).symm, nofun⟩
  | induceIntoStore a b distiller sessionId recordedAt =>
    rw [next]
    unfold ExperienceCodex.induceIntoStore
    cases hinduce : induce isAlphanumeric a b with
    | error reject => exact ⟨h, .refl store⟩
    | ok t =>
      have hstatus : t.status = .candidate := by
        unfold induce at hinduce
        split_ifs at hinduce
        obtain ⟨-, -, h⟩ := bind_eq_ok_iff.mp hinduce
        obtain ⟨⟨workflow, ind⟩, -, h⟩ := bind_eq_ok_iff.mp h
        unfold inducedTemplate at h
        dsimp only at h
        split_ifs at h
        obtain ⟨pattern, -, h⟩ := bind_eq_ok_iff.mp h
        split_ifs at h
        cases h
        rfl
      have hadded : OnlyCandidatesAdded store (store.insertTemplate t).2 := by
        obtain ⟨error, heq⟩ | ⟨-, -, heq⟩ := insertTemplate_cases store t
        · rw [heq]
          exact .refl store
        · rw [heq]
          exact ⟨⟨[], (List.append_nil _).symm, nofun⟩,
            [t], rfl, List.forall_mem_singleton.mpr hstatus⟩
      have hwf := h.insertTemplate t
      dsimp only
      cases hinsert : store.insertTemplate t with
      | mk r inserted =>
        rw [hinsert] at hadded hwf
        cases r with
        | error error => exact ⟨hwf, hadded⟩
        | ok => exact ⟨hwf.of_collections_eq rfl rfl, hadded.experiences, hadded.templates⟩

lemma run_only_adds {store : ExperienceStore} (h : store.Wf) (learning : List LearnOp) :
    (Runs.run (next isAlphanumeric) store learning).Wf ∧
      OnlyCandidatesAdded store (Runs.run (next isAlphanumeric) store learning) := by
  refine Runs.run_induction (P := fun state => state.Wf ∧ OnlyCandidatesAdded store state) ?_
    ⟨h, .refl store⟩ learning
  rintro state op ⟨hwf, hadded⟩
  exact (next_inert isAlphanumeric hwf op).imp_right hadded.trans

/-- From every store that the public operations reach, any learning leaves the answers to every
proposal as they were and adds candidates only. -/
theorem run_inert (floatText : F64 → String) (ops : List StoreOp) (learning : List LearnOp) :
    let store := StoreOp.run ops
    let learned := Runs.run (next isAlphanumeric) store learning
    (∀ proposal, learned.candidatesFor floatText proposal = store.candidatesFor floatText proposal ∧
        learned.templatesFor floatText proposal = store.templatesFor floatText proposal) ∧
      OnlyCandidatesAdded store learned := by
  intro store learned
  have hstore : store.Wf := StoreOp.wf_run ops
  obtain ⟨hlearned, hadded⟩ : learned.Wf ∧ OnlyCandidatesAdded store learned :=
    run_only_adds isAlphanumeric hstore learning
  exact ⟨fun proposal => ⟨hadded.candidatesFor hstore hlearned floatText proposal,
    hadded.templatesFor hstore hlearned floatText proposal⟩, hadded⟩

variable {W : Type} (env : GateEnv W) (context : GateContext) (cancel : ℕ → Bool)

/-- After any learning the gate decides, answers and changes the world as before.  Only where it
panicked, at a name that no experience had, a new candidate may have that name. -/
theorem gate_unmoved (ops : List StoreOp) (learning : List LearnOp) (proposal : ActionProposal)
    (world : W) :
    let store := StoreOp.run ops
    let learned := Runs.run (next isAlphanumeric) store learning
    decideGate env context learned proposal world =
        decideGate env context store proposal world ∧
      (gate env context cancel learned proposal world =
          gate env context cancel store proposal world ∨
        ∃ name,
          gate env context cancel store proposal world = (.error (.leftTheStore name), world)) := by
  intro store learned
  have hstore : store.Wf := StoreOp.wf_run ops
  obtain ⟨hlearned, hadded⟩ : learned.Wf ∧ OnlyCandidatesAdded store learned :=
    run_only_adds isAlphanumeric hstore learning
  have hdecide : decideGate env context learned proposal world =
      decideGate env context store proposal world := by
    simp only [decideGate, hadded.candidatesFor hstore hlearned,
      hadded.templatesFor hstore hlearned]
  refine ⟨hdecide, ?_⟩
  unfold gate
  rw [hdecide]
  cases decideGate env context store proposal world with
  | miss | templateHit => exact .inl rfl
  | hit name | satisfied name =>
    cases hget : store.get name with
    | none => exact .inr ⟨name, by simp only [executeDecision, hget]; rfl⟩
    | some e => simp only [executeDecision, hadded.get hstore hlearned hget, hget, true_or]

end LearnOp

end ExperienceCodex

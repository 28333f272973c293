import ExperienceCodex.Gate
import ExperienceCodex.TemplateRender

/-!
# What the fingerprint of a binding hashes

The material is the name of the template and, for each parameter, a unit separator, its name, an
equals sign and its value.  A value is a piece of the request, and may hold what looks like the next
parameter.
-/

namespace ExperienceCodex

open List Text

lemma append_inj_of_head {p : Char → Prop} {front front' back back' : List Char}
    (hfront : ∀ c ∈ front, p c) (hfront' : ∀ c ∈ front', p c) (hback : ∀ c ∈ back.head?, ¬p c)
    (hback' : ∀ c ∈ back'.head?, ¬p c) (h : front ++ back = front' ++ back') :
    front = front' ∧ back = back' := by
  induction front generalizing front' with
  | nil =>
    cases front' with
    | nil => exact ⟨rfl, h⟩
    | cons c front' => exact absurd (hfront' c mem_cons_self) (hback c (congrArg head? h))
  | cons c front ih =>
    cases front' with
    | nil => exact absurd (hfront c mem_cons_self) (hback' c (congrArg head? h.symm))
    | cons c' front' =>
      obtain ⟨rfl, hrest⟩ := cons.inj h
      obtain ⟨rfl, rfl⟩ := ih (forall_mem_of_forall_mem_cons hfront)
        (forall_mem_of_forall_mem_cons hfront') hrest
      exact ⟨rfl, rfl⟩

/-- The name has no equals sign and the value no unit separator. -/
def Separable (entry : String × String) : Prop :=
  '=' ∉ entry.1.toList ∧ '\x1f' ∉ entry.2.toList

/-- The characters for one parameter. -/
def entryText (entry : String × String) : List Char :=
  '\x1f' :: (entry.1.toList ++ '=' :: entry.2.toList)

lemma head?_flatMap_entryText (es : List (String × String)) :
    ∀ c ∈ (es.flatMap entryText).head?, ¬c ≠ '\x1f' := by
  cases es with
  | nil => exact nofun
  | cons e es =>
    intro c hc
    cases hc
    exact fun hne => hne rfl

lemma flatMap_entryText_injective {es entries' : List (String × String)}
    (hents : ∀ e ∈ es, Separable e)
    (hentries' : ∀ e ∈ entries', Separable e)
    (h : es.flatMap entryText = entries'.flatMap entryText) : es = entries' := by
  induction es generalizing entries' with
  | nil =>
    cases entries' with
    | nil => rfl
    | cons e entries' => cases h
  | cons e es ih =>
    cases entries' with
    | nil => cases h
    | cons entry' entries' =>
      obtain ⟨⟨hname, hval⟩, hents⟩ := forall_mem_cons.mp hents
      obtain ⟨⟨hname', hvalue'⟩, hentries'⟩ := forall_mem_cons.mp hentries'
      simp only [flatMap_cons, entryText, cons_append, append_assoc] at h
      have hclean : ∀ {c : Char} {text : List Char}, c ∉ text → ∀ d ∈ text, d ≠ c :=
        fun hc d hd heq => hc (heq ▸ hd)
      obtain ⟨hsame, h⟩ := append_inj_of_head (hclean hname) (hclean hname') (by simp) (by simp)
        (cons.inj h).2
      obtain ⟨hsame', h⟩ := append_inj_of_head (hclean hval) (hclean hvalue')
        (head?_flatMap_entryText es) (head?_flatMap_entryText entries') (cons.inj h).2
      rw [ih hents hentries' h, Prod.ext (String.toList_inj.mp hsame) (String.toList_inj.mp hsame')]

/-- Bindings that differ have different material, where no name has an equals sign and no value a
unit separator. -/
theorem bindingMaterial_ne (template : ExperienceTemplate) (bindings bindings' : Bindings)
    (hbindings : ∀ entry ∈ bindings.toList, Separable entry)
    (hbindings' : ∀ entry ∈ bindings'.toList, Separable entry) (hne : bindings ≠ bindings') :
    template.bindingMaterial bindings ≠ template.bindingMaterial bindings' := by
  intro h
  have htext : ∀ bindings : Bindings, (template.bindingMaterial bindings).toList =
      template.name.toList ++ bindings.toList.flatMap entryText := by
    intro bindings
    simp [ExperienceTemplate.bindingMaterial, flatMap_map]
    rfl
  have hlists := congrArg String.toList h
  rw [htext, htext, append_cancel_left_eq] at hlists
  exact hne (Std.ExtTreeMap.toList_inj.mp (flatMap_entryText_injective hbindings hbindings' hlists))

/-- Two texts with a bar between them. -/
def pairTemplate : ExperienceTemplate where
  name := "pair"
  trigger := { tool := "task", commandPattern := none }
  parameters :=
    [{ name := "a", source := "task", kind := "text", before := none, after := "|",
        required := true },
      { name := "b", source := "task", kind := "text", before := "|", after := none,
        required := true }]
  workflow := []
  preconditions := []
  postconditions := []
  verification := []
  failurePolicy := .stopAndReport
  undo := .unsupported
  status := .active

def pairProposal (task : String) : ActionProposal :=
  { tool := "task", args := .object [("task", .string task)] }

/-- Two requests that differ in the second text. -/
theorem bindingMaterial_ne_pairs :
    ∃ first second, pairTemplate.bind (fun _ => "") (pairProposal "x|y") "" = .ok first ∧
      pairTemplate.bind (fun _ => "") (pairProposal "x|z") "" = .ok second ∧
      pairTemplate.bindingMaterial first.2 ≠ pairTemplate.bindingMaterial second.2 := by
  refine ⟨_, _, rfl, rfl, bindingMaterial_ne pairTemplate _ _ ?_ ?_ fun h => ?_⟩
  · unfold Separable
    decide
  · unfold Separable
    decide
  · have hvalue := congrArg (fun bindings : Bindings => bindings["b"]?) h
    revert hvalue
    decide

/-- A value that looks like the end of one parameter and the beginning of the next. -/
theorem bindingMaterial_collides :
    ∃ first second, pairTemplate.bind (fun _ => "") (pairProposal "x\x1fb=y|z") "" = .ok first ∧
      pairTemplate.bind (fun _ => "") (pairProposal "x|y\x1fb=z") "" = .ok second ∧
      first.2 ≠ second.2 ∧
      pairTemplate.bindingMaterial first.2 = pairTemplate.bindingMaterial second.2 := by
  refine ⟨_, _, rfl, rfl, fun h => ?_, by decide⟩
  have hvalue := congrArg (fun bindings : Bindings => bindings["a"]?) h
  revert hvalue
  decide

end ExperienceCodex

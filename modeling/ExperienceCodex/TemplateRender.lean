import ExperienceCodex.Chunks
import ExperienceCodex.Template

/-!
# What rendering gives

The loop that renders a text, described without its fuel: a text without a placeholder is left as
it is, and a placeholder is replaced by its value before the rest is rendered.
-/

namespace ExperienceCodex

open List Text Slices Chunks

lemma cutAt_eq_splitOnce (pattern text : List Char) :
    cutAt pattern text = splitOnce pattern text := by
  induction text with
  | nil => rfl
  | cons c rest ih => rw [cutAt, chars_char, splitOnce, ih]

lemma splitOnce_eq_some {pattern text before after : List Char}
    (h : splitOnce pattern text = some (before, after)) : text = before ++ pattern ++ after := by
  rw [← cutAt_eq_splitOnce] at h
  obtain ⟨middle, rfl, hmid⟩ := cutAt_eq_some h
  rw [← hmid, chars_char]

lemma splitOnce_eq_none_iff {pattern : List Char} (hpat : pattern ≠ []) (text : List Char) :
    splitOnce pattern text = none ↔ ¬ pattern <:+: text := by
  rw [← cutAt_eq_splitOnce, cutAt_eq_none hpat]

/-- Text that starts no occurrence stays in front. -/
lemma splitOnce_append_left {first : Char} {pattern front : List Char} (h : first ∉ front)
    (text : List Char) :
    splitOnce (first :: pattern) (front ++ text) =
      (splitOnce (first :: pattern) text).map fun (before, after) => (front ++ before, after) := by
  rw [← cutAt_eq_splitOnce, ← cutAt_eq_splitOnce]
  refine cutAt_append_of_not_prefix fun piece hne hpiece hfound => h ?_
  obtain ⟨c, rest, rfl⟩ := exists_cons_of_ne_nil hne
  rw [cons_append, cons_prefix_cons] at hfound
  exact hpiece.mem (hfound.1 ▸ mem_cons_self)

/-- An occurrence stays the first one when text is appended. -/
lemma splitOnce_append_right {pattern text before after : List Char} (hpat : pattern ≠ [])
    (h : splitOnce pattern text = some (before, after)) (back : List Char) :
    splitOnce pattern (text ++ back) = some (before, after ++ back) := by
  rw [← cutAt_eq_splitOnce] at h ⊢
  exact cutAt_append_of_some hpat h

/-- The rendering of a text with the given values. -/
inductive Renders (bindings : Bindings) : List Char → List Char → Prop
  | literal {text : List Char} (h : splitOnce ['$', '\x7b'] text = none) :
      Renders bindings text text
  | hole {text literal opened name closed tail : List Char} {value : String}
      (hopen : splitOnce ['$', '\x7b'] text = some (literal, opened))
      (hclose : splitOnce ['\x7d'] opened = some (name, closed))
      (hvalue : bindings[String.ofList name]? = some value)
      (htail : Renders bindings closed tail) :
      Renders bindings text (literal ++ value.toList ++ tail)

/-- The length of the text is fuel enough for the loop. -/
lemma renderRest_eq_ok_iff (input : String) (bindings : Bindings) {fuel : ℕ}
    {text output : List Char} (hfuel : text.length ≤ fuel) :
    renderRest input bindings fuel text = .ok output ↔ Renders bindings text output := by
  induction fuel generalizing text output with
  | zero =>
    have htext : text = [] := length_eq_zero_iff.mp (by omega)
    subst htext
    rw [renderRest]
    constructor
    · rintro ⟨⟩
      exact .literal rfl
    · intro h
      cases h with
      | literal => rfl
      | hole hopen => cases hopen
  | succ fuel ih =>
    rw [renderRest]
    cases hopen : splitOnce ['$', '\x7b'] text with
    | none =>
      constructor
      · rintro ⟨⟩
        exact .literal hopen
      · intro h
        cases h with
        | literal => rfl
        | hole hopened => cases hopen.symm.trans hopened
    | some split =>
      obtain ⟨literal, opened⟩ := split
      cases hclose : splitOnce ['\x7d'] opened with
      | none =>
        simp only [hclose, reduceCtorEq, false_iff]
        intro h
        cases h with
        | literal hlit => cases hopen.symm.trans hlit
        | hole hopened hclosed =>
          cases hopen.symm.trans hopened
          cases hclose.symm.trans hclosed
      | some split =>
        obtain ⟨name, closed⟩ := split
        -- A round consumes the placeholder, so the rest is shorter.
        have hshorter : closed.length ≤ fuel := by
          have htext := congrArg length (splitOnce_eq_some hopen)
          have hopened := congrArg length (splitOnce_eq_some hclose)
          simp only [length_append, length_cons, length_nil] at htext hopened
          omega
        simp only [hclose]
        cases hval : bindings[String.ofList name]? with
        | none =>
          simp only [reduceCtorEq, false_iff]
          intro h
          cases h with
          | literal hlit => cases hopen.symm.trans hlit
          | hole hopened hclosed hbound =>
            cases hopen.symm.trans hopened
            cases hclose.symm.trans hclosed
            cases hval.symm.trans hbound
        | some value =>
          dsimp only
          rw [bind_eq_ok_iff]
          constructor
          · rintro ⟨tail, htail, houtput⟩
            cases houtput
            exact .hole hopen hclose hval ((ih hshorter).mp htail)
          · intro h
            cases h with
            | literal hlit => cases hopen.symm.trans hlit
            | hole hopened hclosed hbound htail =>
              cases hopen.symm.trans hopened
              cases hclose.symm.trans hclosed
              cases hval.symm.trans hbound
              exact ⟨_, (ih hshorter).mpr htail, rfl⟩

theorem renderString_eq_ok_iff (input output : String) (bindings : Bindings) :
    renderString input bindings = .ok output ↔
      Renders bindings input.toList output.toList := by
  rw [renderString, bind_eq_ok_iff]
  constructor
  · rintro ⟨text, htext, houtput⟩
    cases houtput
    rw [String.toList_ofList]
    exact (renderRest_eq_ok_iff input bindings le_rfl).mp htext
  · intro h
    refine ⟨output.toList, (renderRest_eq_ok_iff input bindings le_rfl).mpr h, ?_⟩
    rw [String.ofList_toList]
    rfl

/-- A text without a placeholder renders to itself. -/
theorem renderString_literal {input : String} (bindings : Bindings)
    (h : contains input "$\x7b" = false) : renderString input bindings = .ok input := by
  refine (renderString_eq_ok_iff input input bindings).mpr (.literal ?_)
  rw [splitOnce_eq_none_iff (by simp)]
  exact of_decide_eq_false h

/-- A placeholder renders to its value. -/
theorem renderString_placeholder {name : String} (bindings : Bindings) (output : String)
    (h : '\x7d' ∉ name.toList) :
    renderString ("$\x7b" ++ name ++ "\x7d") bindings = .ok output ↔
      bindings[name]? = some output := by
  have htext : ("$\x7b" ++ name ++ "\x7d").toList = '$' :: '\x7b' :: (name.toList ++ ['\x7d']) := by
    simp [String.toList_append]
  have hopen : splitOnce ['$', '\x7b'] ('$' :: '\x7b' :: (name.toList ++ ['\x7d'])) =
      some ([], name.toList ++ ['\x7d']) := by
    simp [splitOnce]
  have hclose : splitOnce ['\x7d'] (name.toList ++ ['\x7d']) = some (name.toList, []) := by
    rw [splitOnce_append_left h]
    simp [splitOnce]
  rw [renderString_eq_ok_iff, htext]
  constructor
  · intro hrenders
    generalize houtput : output.toList = rendered at hrenders
    cases hrenders with
    | literal hlit => cases hopen.symm.trans hlit
    | @hole _ _ _ _ _ tail value hopened hclosed hval htail =>
      cases hopen.symm.trans hopened
      cases hclose.symm.trans hclosed
      have hend : tail = [] := by
        cases htail with
        | literal => rfl
        | hole hmore => cases hmore
      rw [hend, nil_append, append_nil, String.toList_inj] at houtput
      rw [houtput, ← hval, String.ofList_toList]
  · intro hval
    have hbound : bindings[String.ofList name.toList]? = some output := by
      rw [String.ofList_toList]
      exact hval
    have hrenders := Renders.hole hopen hclose hbound (.literal rfl)
    rwa [nil_append, append_nil] at hrenders

variable {bindings : Bindings}

lemma Renders.append_left {front text output : List Char}
    (h : Renders bindings text output) (hfront : '$' ∉ front) :
    Renders bindings (front ++ text) (front ++ output) := by
  cases h with
  | literal hlit =>
    refine .literal ?_
    rw [splitOnce_append_left hfront, hlit]
    rfl
  | hole hopen hclose hval htail =>
    rw [← append_assoc, ← append_assoc]
    refine .hole ?_ hclose hval htail
    rw [splitOnce_append_left hfront, hopen]
    rfl

lemma splitOnce_append_eq_none {text back : List Char}
    (h : splitOnce ['$', '\x7b'] text = none) (hdollar : '$' ∉ back)
    (hbrace : back.head? ≠ some '\x7b') : splitOnce ['$', '\x7b'] (text ++ back) = none := by
  rw [splitOnce_eq_none_iff (by simp)] at h ⊢
  rintro ⟨before, after, heq⟩
  rw [append_assoc, append_eq_append_iff] at heq
  -- The dollar lies in the text, and the brace then follows it there.
  obtain ⟨middle, rfl, hrest⟩ | ⟨middle, rfl, hrest⟩ := heq
  · cases middle with
    | nil =>
      rw [nil_append] at hrest
      exact hdollar (hrest ▸ by simp)
    | cons first middle =>
      simp only [cons_append, nil_append, cons.injEq] at hrest
      obtain ⟨rfl, hrest⟩ := hrest
      cases middle with
      | nil =>
        rw [nil_append] at hrest
        exact hbrace (by rw [← hrest]; rfl)
      | cons second middle =>
        rw [cons_append, cons.injEq] at hrest
        obtain ⟨rfl, -⟩ := hrest
        exact h ⟨before, middle, by simp⟩
  · refine hdollar ?_
    rw [hrest]
    simp

lemma Renders.append_right {text output back : List Char}
    (h : Renders bindings text output) (hdollar : '$' ∉ back)
    (hbrace : back.head? ≠ some '\x7b') : Renders bindings (text ++ back) (output ++ back) := by
  induction h with
  | literal hlit => exact .literal (splitOnce_append_eq_none hlit hdollar hbrace)
  | hole hopen hclose hval _ ih =>
    rw [append_assoc]
    exact .hole (splitOnce_append_right (by simp) hopen back)
      (splitOnce_append_right (by simp) hclose back) hval ih

/-- Plain text around a text that renders is kept around the result. -/
theorem renderString_around {input output front back : String}
    (h : renderString input bindings = .ok output) (hfront : '$' ∉ front.toList)
    (hback : '$' ∉ back.toList) (hbrace : back.toList.head? ≠ some '\x7b') :
    renderString (front ++ input ++ back) bindings = .ok (front ++ output ++ back) := by
  rw [renderString_eq_ok_iff] at h ⊢
  rw [String.toList_append, String.toList_append, String.toList_append, String.toList_append]
  exact (h.append_left hfront).append_right hback hbrace

/-- Literals with a placeholder behind each, filled by its name, and a last literal. -/
def joinPieces (fill : String → List Char) (holes : List (List Char × String))
    (last : List Char) : List Char :=
  holes.flatMap (fun hole => hole.1 ++ fill hole.2) ++ last

def placeholder (name : String) : List Char :=
  '$' :: '\x7b' :: name.toList ++ ['\x7d']

/-- A literal that opens no placeholder, and the name of a closed one that has a value. -/
def BoundHole (bindings : Bindings) (hole : List Char × String) : Prop :=
  ¬ ['$', '\x7b'] <:+: hole.1 ∧ '\x7d' ∉ hole.2.toList ∧ bindings[hole.2]? ≠ none

lemma not_infix_of_splitOnce {pattern text before after : List Char} (hpat : pattern ≠ [])
    (h : splitOnce pattern text = some (before, after)) : ¬ pattern <:+: before := by
  intro hinside
  cases hfound : splitOnce pattern before with
  | none => exact (splitOnce_eq_none_iff hpat before).mp hfound hinside
  | some parts =>
    have hagain := splitOnce_append_right hpat hfound (pattern ++ after)
    rw [← append_assoc, ← splitOnce_eq_some h, h] at hagain
    have hafter := congrArg length (Prod.ext_iff.mp (Option.some.inj hagain)).2
    have hlen := length_pos_of_ne_nil hpat
    simp only [length_append] at hafter
    omega

lemma splitOnce_open {literal : List Char} (h : ¬ ['$', '\x7b'] <:+: literal) (rest : List Char) :
    splitOnce ['$', '\x7b'] (literal ++ '$' :: '\x7b' :: rest) = some (literal, rest) := by
  induction literal with
  | nil => simp [splitOnce]
  | cons c literal ih =>
    rw [infix_cons_iff, not_or] at h
    have hstart : ¬ ['$', '\x7b'] <+: c :: (literal ++ '$' :: '\x7b' :: rest) := by
      cases literal with
      | nil => simp
      | cons d literal => simpa using h.1
    rw [cons_append, splitOnce, if_neg hstart, ih h.2]
    rfl

/-- A text renders exactly where it is in pieces with a value for each placeholder, and it renders
to its literals and these values. -/
theorem renderString_eq_ok_iff_pieces (input output : String) (bindings : Bindings) :
    renderString input bindings = .ok output ↔ ∃ holes last,
      (∀ hole ∈ holes, BoundHole bindings hole) ∧ ¬ ['$', '\x7b'] <:+: last ∧
        input.toList = joinPieces placeholder holes last ∧
        output.toList = joinPieces (fun name => (bindings[name]?.getD "").toList) holes last := by
  rw [renderString_eq_ok_iff]
  generalize input.toList = text
  generalize output.toList = output
  constructor
  · intro h
    induction h with
    | @literal text hlit =>
      exact ⟨[], text, by simp, (splitOnce_eq_none_iff (by simp) text).mp hlit, rfl, rfl⟩
    | @hole text literal opened name closed tail value hopen hclose hval _ ih =>
      obtain ⟨holes, last, hholes, hlast, hclosed, htail⟩ := ih
      have hlit := not_infix_of_splitOnce (by simp) hopen
      have hname := not_infix_of_splitOnce (by simp) hclose
      rw [singleton_infix_iff] at hname
      refine ⟨(literal, String.ofList name) :: holes, last, ?_, hlast, ?_, ?_⟩
      · rw [forall_mem_cons]
        exact ⟨⟨hlit, by rwa [String.toList_ofList], by simp [hval]⟩, hholes⟩
      · rw [splitOnce_eq_some hopen, splitOnce_eq_some hclose, hclosed]
        simp [joinPieces, placeholder]
      · rw [htail]
        simp [joinPieces, hval]
  · rintro ⟨holes, last, hholes, hlast, rfl, rfl⟩
    induction holes with
    | nil => exact .literal ((splitOnce_eq_none_iff (by simp) last).mpr hlast)
    | cons hole holes ih =>
      obtain ⟨⟨hlit, hname, hbound⟩, hrest⟩ := forall_mem_cons.mp hholes
      obtain ⟨value, hval⟩ := Option.ne_none_iff_exists'.mp hbound
      have hclose : splitOnce ['\x7d']
          (hole.2.toList ++ '\x7d' :: joinPieces placeholder holes last) =
          some (hole.2.toList, joinPieces placeholder holes last) := by
        rw [splitOnce_append_left hname]
        simp [splitOnce]
      have hrenders := Renders.hole (splitOnce_open hlit _) hclose
        (by rwa [String.ofList_toList]) (ih hrest)
      simpa [joinPieces, placeholder, hval] using hrenders

end ExperienceCodex

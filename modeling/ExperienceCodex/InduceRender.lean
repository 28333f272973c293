import ExperienceCodex.InduceWalk
import ExperienceCodex.TemplateRender

/-!
# Rendering an induced workflow

A value with holes renders to that of a run exactly when what stands for each of its texts renders
to the text of the run.  The values are compared with the equality of the source, under which the
order of the members does not matter.
-/

namespace ExperienceCodex

open Text

/-- The item of the first run or of the second. -/
def pick {α : Type} (second : Bool) (ofA ofB : α) : α := if second then ofB else ofA

section
variable (bindings : Bindings)

/-- The value renders to one that equals the target. -/
def ValueRenders (value target : Json) : Prop :=
  ∃ rendered, renderValue bindings value = .ok rendered ∧ rendered.jsonEq target = true

def ItemsRender (values targets : List Json) : Prop :=
  ∃ rendered, renderValues bindings values = .ok rendered ∧ Json.arrayEq rendered targets = true

def MembersRender (members targets : List (String × Json)) : Prop :=
  ∃ rendered, renderMembers bindings members = .ok rendered ∧ Json.membersEq rendered targets = true

variable {bindings}

lemma valueRenders_string {text target : String} :
    ValueRenders bindings (.string text) (.string target) ↔
      renderString text bindings = .ok target := by
  constructor
  · rintro ⟨out, hrend, hequal⟩
    obtain ⟨output, houtput, heq⟩ := bind_eq_ok_iff.mp hrend
    cases heq
    rw [houtput, eq_of_beq hequal]
  · intro h
    refine ⟨.string target, ?_, beq_self_eq_true target⟩
    rw [renderValue, h]
    rfl

lemma valueRenders_array {values targets : List Json} :
    ValueRenders bindings (.array values) (.array targets) ↔
      ItemsRender bindings values targets := by
  constructor
  · rintro ⟨out, hrend, hequal⟩
    obtain ⟨items, hitems, heq⟩ := bind_eq_ok_iff.mp hrend
    cases heq
    exact ⟨items, hitems, hequal⟩
  · rintro ⟨items, hitems, hequal⟩
    refine ⟨.array items, ?_, hequal⟩
    rw [renderValue, hitems]
    rfl

lemma length_renderMembers {members out : List (String × Json)}
    (h : renderMembers bindings members = .ok out) : out.length = members.length := by
  induction members generalizing out with
  | nil =>
    cases h
    rfl
  | cons member rest ih =>
    rw [renderMembers] at h
    obtain ⟨value, -, h⟩ := bind_eq_ok_iff.mp h
    obtain ⟨others, hothers, heq⟩ := bind_eq_ok_iff.mp h
    cases heq
    rw [List.length_cons, List.length_cons, ih hothers]

lemma valueRenders_object {members targets : List (String × Json)}
    (hlen : members.length = targets.length) :
    ValueRenders bindings (.object members) (.object targets) ↔
      MembersRender bindings members targets := by
  constructor
  · rintro ⟨out, hrend, hequal⟩
    obtain ⟨others, hothers, heq⟩ := bind_eq_ok_iff.mp hrend
    cases heq
    rw [Json.jsonEq, Bool.and_eq_true] at hequal
    exact ⟨others, hothers, hequal.2⟩
  · rintro ⟨others, hothers, hequal⟩
    refine ⟨.object others, ?_, ?_⟩
    · rw [renderValue, hothers]
      rfl
    · rw [Json.jsonEq, length_renderMembers hothers, hlen, hequal, beq_self_eq_true]
      rfl

lemma itemsRender_nil : ItemsRender bindings [] [] := ⟨[], rfl, rfl⟩

lemma itemsRender_cons {value tgt : Json} {values targets : List Json} :
    ItemsRender bindings (value :: values) (tgt :: targets) ↔
      ValueRenders bindings value tgt ∧ ItemsRender bindings values targets := by
  constructor
  · rintro ⟨out, hrend, hequal⟩
    rw [renderValues] at hrend
    obtain ⟨first, hfst, hrend⟩ := bind_eq_ok_iff.mp hrend
    obtain ⟨rest, hrest, heq⟩ := bind_eq_ok_iff.mp hrend
    cases heq
    rw [Json.arrayEq, Bool.and_eq_true] at hequal
    exact ⟨⟨first, hfst, hequal.1⟩, ⟨rest, hrest, hequal.2⟩⟩
  · rintro ⟨⟨first, hfst, hequal⟩, ⟨rest, hrest, hothers⟩⟩
    refine ⟨first :: rest, ?_, ?_⟩
    · rw [renderValues, hfst, ok_bind, hrest]
      rfl
    · rw [Json.arrayEq, hequal, hothers]
      rfl

lemma membersRender_nil {targets : List (String × Json)} : MembersRender bindings [] targets :=
  ⟨[], rfl, rfl⟩

lemma membersRender_cons {key : String} {value tgt : Json}
    {members targets : List (String × Json)} (hlook : targets.lookup key = some tgt) :
    MembersRender bindings ((key, value) :: members) targets ↔
      ValueRenders bindings value tgt ∧ MembersRender bindings members targets := by
  constructor
  · rintro ⟨out, hrend, hequal⟩
    rw [renderMembers] at hrend
    obtain ⟨first, hfst, hrend⟩ := bind_eq_ok_iff.mp hrend
    obtain ⟨rest, hrest, heq⟩ := bind_eq_ok_iff.mp hrend
    cases heq
    rw [Json.membersEq, Bool.and_eq_true, hlook] at hequal
    exact ⟨⟨first, hfst, hequal.1⟩, ⟨rest, hrest, hequal.2⟩⟩
  · rintro ⟨⟨first, hfst, hequal⟩, ⟨rest, hrest, hothers⟩⟩
    refine ⟨(key, first) :: rest, ?_, ?_⟩
    · rw [renderMembers, hfst, ok_bind, hrest]
      rfl
    · rw [Json.membersEq, hlook, hothers, Bool.and_true]
      exact hequal

end

section
variable (log : List Entry) (bindings : Bindings) (second : Bool)

/-- What stands for a pair of texts renders to the text of the run. -/
def LeafRenders (leaf : Leaf) : Prop :=
  renderString (holeText log leaf.valueA leaf.valueB) bindings =
    .ok (pick second leaf.valueA leaf.valueB)

variable {log bindings second}

lemma pick_map {α β : Type} (f : α → β) (ofA ofB : α) :
    pick second (f ofA) (f ofB) = f (pick second ofA ofB) := by
  cases second <;> rfl

/-- A value without texts renders to itself. -/
lemma render_scalar_iff {hint : Option String} {left right : Json}
    (hrender : renderValue bindings left = .ok left) (hself : left.jsonEq left = true)
    (hleaves : leaves hint left right = []) (hholes : withHoles log left right = left)
    (hequal : left.jsonEq right = true) :
    ValueRenders bindings (withHoles log left right) (pick second left right) ↔
      ∀ leaf ∈ leaves hint left right, LeafRenders log bindings second leaf := by
  rw [hholes, hleaves]
  refine iff_of_true ⟨left, hrender, ?_⟩ nofun
  cases second
  · exact hself
  · exact hequal

lemma lookup_of_nodup {members : List (String × Json)} (h : (members.map Prod.fst).Nodup)
    {member : String × Json} (hmem : member ∈ members) :
    members.lookup member.1 = some member.2 := by
  induction members with
  | nil => cases hmem
  | cons first rest ih =>
    rw [List.map_cons, List.nodup_cons] at h
    rw [List.lookup_cons]
    rcases List.mem_cons.mp hmem with rfl | hrest
    · simp
    · have hne : member.1 ≠ first.1 := fun heq => h.1 (List.mem_map.mpr ⟨member, hrest, heq⟩)
      rw [beq_eq_false_iff_ne.mpr hne]
      exact ih h.2 hrest

lemma length_withHolesMembers {membersB : List (String × Json)} {membersA : List (String × Json)}
    (h : alikeMembers membersB membersA = true) :
    (withHolesMembers log membersB membersA).length = membersA.length := by
  induction membersA with
  | nil => rfl
  | cons member rest ih =>
    rw [alikeMembers, Bool.and_eq_true] at h
    rw [withHolesMembers]
    cases hlook : membersB.lookup member.1 with
    | none =>
      rw [hlook] at h
      cases h.1
    | some itemB => rw [List.length_cons, List.length_cons, ih h.2]

mutual
/-- A value with holes renders to that of a run exactly when each of its texts does. -/
theorem render_withHoles_iff {hint : Option String} : (left right : Json) →
    alike left right = true → left.uniqueKeys = true →
    (ValueRenders bindings (withHoles log left right) (pick second left right) ↔
      ∀ leaf ∈ leaves hint left right, LeafRenders log bindings second leaf)
  | .string textA, .string textB => by
    intro _ _
    rw [pick_map, withHoles, valueRenders_string, leaves, List.forall_mem_singleton]
    rfl
  | .array itemsA, .array itemsB => by
    intro halike huniq
    rw [alike, Bool.and_eq_true, beq_iff_eq] at halike
    rw [pick_map, withHoles, valueRenders_array, leaves]
    exact render_withHolesItems_iff itemsA itemsB halike.1 halike.2 huniq
  | .object membersA, .object membersB => by
    intro halike huniq
    rw [alike, Bool.and_eq_true, beq_iff_eq] at halike
    rw [Json.uniqueKeys, Bool.and_eq_true, decide_eq_true_eq] at huniq
    have hlen : (withHolesMembers log membersB membersA).length =
        (pick second membersA membersB).length := by
      rw [length_withHolesMembers halike.2]
      cases second
      · rfl
      · exact halike.1
    rw [pick_map, withHoles, valueRenders_object hlen, leaves]
    refine render_withHolesMembers_iff membersB _ membersA halike.2 huniq.2 ?_
    -- The target of a member is found under its key in the object of either run.
    intro member hmember itemB hlook
    cases second
    · exact lookup_of_nodup huniq.1 hmember
    · exact hlook
  | .null, right => fun halike _ => by
    cases right <;> exact render_scalar_iff rfl rfl rfl rfl halike
  | .bool b, right => fun halike _ => by
    cases right <;> exact render_scalar_iff rfl (beq_self_eq_true b) rfl rfl halike
  | .number n, right => fun halike _ => by
    cases right <;> exact render_scalar_iff rfl n.numEq_self rfl rfl halike
  | .string _, .null | .string _, .bool _ | .string _, .number _ | .string _, .array _
  | .string _, .object _ | .array _, .null | .array _, .bool _ | .array _, .number _
  | .array _, .string _ | .array _, .object _ | .object _, .null | .object _, .bool _
  | .object _, .number _ | .object _, .string _ | .object _, .array _ =>
    fun halike _ => absurd halike Bool.false_ne_true
termination_by structural left => left
theorem render_withHolesItems_iff : (itemsA itemsB : List Json) →
    itemsA.length = itemsB.length → alikeItems itemsA itemsB = true →
    Json.uniqueKeysArray itemsA = true →
    (ItemsRender bindings (withHolesItems log itemsA itemsB) (pick second itemsA itemsB) ↔
      ∀ leaf ∈ leavesItems itemsA itemsB, LeafRenders log bindings second leaf)
  | [], [] => fun _ _ _ => by
    refine iff_of_true ?_ nofun
    cases second <;> exact itemsRender_nil
  | [], _ :: _ => fun hlen => nomatch hlen
  | _ :: _, [] => fun hlen => nomatch hlen
  | itemA :: restA, itemB :: restB => by
    intro hlen halike huniq
    rw [alikeItems, Bool.and_eq_true] at halike
    rw [Json.uniqueKeysArray, Bool.and_eq_true] at huniq
    have hpick : pick second (itemA :: restA) (itemB :: restB) =
        pick second itemA itemB :: pick second restA restB := by
      cases second <;> rfl
    rw [hpick, withHolesItems, itemsRender_cons, leavesItems, List.forall_mem_append,
      render_withHoles_iff itemA itemB halike.1 huniq.1,
      render_withHolesItems_iff restA restB (Nat.succ.inj hlen) halike.2 huniq.2]
termination_by structural itemsA => itemsA
theorem render_withHolesMembers_iff (membersB targets : List (String × Json)) :
    (membersA : List (String × Json)) → alikeMembers membersB membersA = true →
    Json.uniqueKeysMembers membersA = true →
    (∀ member ∈ membersA, ∀ itemB, membersB.lookup member.1 = some itemB →
      targets.lookup member.1 = some (pick second member.2 itemB)) →
    (MembersRender bindings (withHolesMembers log membersB membersA) targets ↔
      ∀ leaf ∈ leavesMembers membersB membersA, LeafRenders log bindings second leaf)
  | [] => fun _ _ _ => iff_of_true membersRender_nil nofun
  | (key, itemA) :: restA => by
    intro halike huniq htgts
    rw [alikeMembers, Bool.and_eq_true] at halike
    rw [Json.uniqueKeysMembers, Bool.and_eq_true] at huniq
    rw [withHolesMembers, leavesMembers]
    cases hlook : membersB.lookup key with
    | none =>
      rw [hlook] at halike
      cases halike.1
    | some itemB =>
      rw [hlook] at halike
      dsimp only
      rw [membersRender_cons (htgts (key, itemA) List.mem_cons_self itemB hlook),
        List.forall_mem_append, render_withHoles_iff itemA itemB halike.1 huniq.1,
        render_withHolesMembers_iff membersB targets restA halike.2 huniq.2
          (List.forall_mem_of_forall_mem_cons htgts)]
termination_by structural membersA => membersA
end

end

end ExperienceCodex

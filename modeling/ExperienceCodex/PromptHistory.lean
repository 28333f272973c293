import ExperienceCodex.Pairing

/-!
# The prompt history

Before the history is sent to the model, each call in it gets an output and each output without a
call is dropped.  A local shell call is answered by a function call output.  An output of a tool
search that ran on the server, and an output that names no call, stand alone.

The data of an item that these passes do not look at is the parameter `β`.
-/

namespace ExperienceCodex.ContextManager

open Pairing

inductive FunctionCallOutputBody (β : Type) where
  | text (content : String)
  | contentItems (items : List β)
deriving DecidableEq

structure FunctionCallOutputPayload (β : Type) where
  body : FunctionCallOutputBody β
  success : Option Bool
deriving DecidableEq

def FunctionCallOutputPayload.fromText {β : Type} (content : String) :
    FunctionCallOutputPayload β where
  body := .text content
  success := none

inductive ResponseItem (β : Type) where
  | functionCall (id : Option String) (callId : String) (rest : β)
  | localShellCall (id : Option String) (callId : Option String) (rest : β)
  | toolSearchCall (id : Option String) (callId : Option String) (rest : β)
  | customToolCall (id : Option String) (callId : String) (rest : β)
  | functionCallOutput (id callId name nameSpace : Option String)
      (output : FunctionCallOutputPayload β) (metadata : Option β)
  | customToolCallOutput (id : Option String) (callId : String) (name : Option String)
      (output : FunctionCallOutputPayload β) (metadata : Option β)
  | toolSearchOutput (id callId : Option String) (status execution : String) (tools : List β)
      (metadata : Option β)
  | other (rest : β)
deriving DecidableEq

structure ResponseItemEnvelope (β : Type) where
  item : ResponseItem β
  metadata : Option β
deriving DecidableEq

namespace ResponseItemEnvelope

def new {β : Type} (item : ResponseItem β) : ResponseItemEnvelope β where
  item := item
  metadata := none

end ResponseItemEnvelope

variable {β : Type}

section
variable (newV5 : String → String)

/-- `newV5` is the name-based UUID in the namespace of synthetic outputs. -/
def syntheticOutputId (kind : String) (itemId : Option String) : Option String := do
  let sourceId ← itemId.filter fun id => !id.isEmpty
  return kind ++ "_" ++ newV5 (kind ++ ":" ++ sourceId)

def functionOutputId (envelope : ResponseItemEnvelope β) : Option String :=
  match envelope.item with
  | .functionCallOutput _ (some callId) _ _ _ _ => some callId
  | _ => none

def functionOutputIds (items : List (ResponseItemEnvelope β)) : List String :=
  items.filterMap functionOutputId

def toolSearchOutputId (envelope : ResponseItemEnvelope β) : Option String :=
  match envelope.item with
  | .toolSearchOutput _ (some callId) _ _ _ _ => some callId
  | _ => none

def toolSearchOutputIds (items : List (ResponseItemEnvelope β)) : List String :=
  items.filterMap toolSearchOutputId

def customToolOutputId (envelope : ResponseItemEnvelope β) : Option String :=
  match envelope.item with
  | .customToolCallOutput _ callId _ _ _ => some callId
  | _ => none

def customToolOutputIds (items : List (ResponseItemEnvelope β)) : List String :=
  items.filterMap customToolOutputId

def syntheticFunctionOutput (id : Option String) (callId : String) : ResponseItemEnvelope β :=
  .new (.functionCallOutput (syntheticOutputId newV5 "fco" id) (some callId) none none
    (.fromText "aborted") none)

def syntheticToolSearchOutput (id : Option String) (callId : String) : ResponseItemEnvelope β :=
  .new (.toolSearchOutput (syntheticOutputId newV5 "tso" id) (some callId) "completed" "client" []
    none)

def syntheticCustomToolOutput (id : Option String) (callId : String) : ResponseItemEnvelope β :=
  .new (.customToolCallOutput (syntheticOutputId newV5 "ctco" id) callId none
    (.fromText "aborted") none)

/-- The output that a call lacks. -/
def missingOutput (functionIds toolSearchIds customIds : List String)
    (envelope : ResponseItemEnvelope β) : Option (ResponseItemEnvelope β) :=
  match envelope.item with
  | .functionCall id callId _ =>
    if callId ∈ functionIds then none else some (syntheticFunctionOutput newV5 id callId)
  | .toolSearchCall id (some callId) _ =>
    if callId ∈ toolSearchIds then none else some (syntheticToolSearchOutput newV5 id callId)
  | .customToolCall id callId _ =>
    if callId ∈ customIds then none else some (syntheticCustomToolOutput newV5 id callId)
  | .localShellCall id (some callId) _ =>
    if callId ∈ functionIds then none else some (syntheticFunctionOutput newV5 id callId)
  | _ => none

def ensureCallOutputsPresent (items : List (ResponseItemEnvelope β)) :
    List (ResponseItemEnvelope β) :=
  let missing := missingOutput newV5 (functionOutputIds items) (toolSearchOutputIds items)
    (customToolOutputIds items)
  insertBehind items (collectFrom missing 0 items)

end

def functionCallId (envelope : ResponseItemEnvelope β) : Option String :=
  match envelope.item with
  | .functionCall _ callId _ => some callId
  | .localShellCall _ (some callId) _ => some callId
  | _ => none

def functionCallIds (items : List (ResponseItemEnvelope β)) : List String :=
  items.filterMap functionCallId

def toolSearchCallId (envelope : ResponseItemEnvelope β) : Option String :=
  match envelope.item with
  | .toolSearchCall _ (some callId) _ => some callId
  | _ => none

def toolSearchCallIds (items : List (ResponseItemEnvelope β)) : List String :=
  items.filterMap toolSearchCallId

def customToolCallId (envelope : ResponseItemEnvelope β) : Option String :=
  match envelope.item with
  | .customToolCall _ callId _ => some callId
  | _ => none

def customToolCallIds (items : List (ResponseItemEnvelope β)) : List String :=
  items.filterMap customToolCallId

/-- An output whose call is not in the history. -/
def isOrphan (functionIds toolSearchIds customIds : List String)
    (envelope : ResponseItemEnvelope β) : Bool :=
  match envelope.item with
  | .functionCallOutput _ (some callId) _ _ _ _ => decide (callId ∉ functionIds)
  | .customToolCallOutput _ callId _ _ _ => decide (callId ∉ customIds)
  | .toolSearchOutput _ (some callId) _ execution _ _ =>
    execution != "server" && decide (callId ∉ toolSearchIds)
  | _ => false

def removeOrphanOutputs (items : List (ResponseItemEnvelope β)) : List (ResponseItemEnvelope β) :=
  let orphan := isOrphan (functionCallIds items) (toolSearchCallIds items) (customToolCallIds items)
  let positions := collectFrom (fun envelope => if orphan envelope then some () else none) 0 items
  if positions.isEmpty then items else retainFrom 0 (positions.map Prod.fst) items

inductive OutputKind where
  | function
  | toolSearch
  | customTool
deriving DecidableEq

/-- The output that an item requires: its kind and the call id. -/
def requiredOutput (envelope : ResponseItemEnvelope β) : Option (OutputKind × String) :=
  match envelope.item with
  | .functionCall _ callId _ => some (.function, callId)
  | .localShellCall _ (some callId) _ => some (.function, callId)
  | .toolSearchCall _ (some callId) _ => some (.toolSearch, callId)
  | .customToolCall _ callId _ => some (.customTool, callId)
  | _ => none

/-- The output that an item is. -/
def outputOf (envelope : ResponseItemEnvelope β) : Option (OutputKind × String) :=
  match envelope.item with
  | .functionCallOutput _ (some callId) _ _ _ _ => some (.function, callId)
  | .customToolCallOutput _ callId _ _ _ => some (.customTool, callId)
  | .toolSearchOutput _ (some callId) _ _ _ _ => some (.toolSearch, callId)
  | _ => none

/-- An output that needs no call: that of a tool search on the server. -/
def isExempt (envelope : ResponseItemEnvelope β) : Bool :=
  match envelope.item with
  | .toolSearchOutput _ _ _ execution _ _ => execution == "server"
  | _ => false

def callItemId (envelope : ResponseItemEnvelope β) : Option String :=
  match envelope.item with
  | .functionCall id _ _ => id
  | .localShellCall id _ _ => id
  | .toolSearchCall id _ _ => id
  | .customToolCall id _ _ => id
  | _ => none

section
variable (newV5 : String → String)

def syntheticOutput (envelope : ResponseItemEnvelope β) :
    OutputKind × String → ResponseItemEnvelope β
  | (.function, callId) => syntheticFunctionOutput newV5 (callItemId envelope) callId
  | (.toolSearch, callId) => syntheticToolSearchOutput newV5 (callItemId envelope) callId
  | (.customTool, callId) => syntheticCustomToolOutput newV5 (callItemId envelope) callId

def historyRoles : Roles (ResponseItemEnvelope β) (OutputKind × String) where
  request := requiredOutput
  answer := outputOf
  free := isExempt
  fresh := syntheticOutput newV5
  answer_fresh envelope key := by
    obtain ⟨kind, callId⟩ := key
    cases kind <;> rfl
  request_eq_none envelope key h := by
    obtain ⟨item, metadata⟩ := envelope
    cases item <;> first | rfl | cases h

variable {items : List (ResponseItemEnvelope β)} {callId : String}

variable (envelope : ResponseItemEnvelope β)

/-- The identifiers that the passes collect of an item are those of its keys. -/
lemma ids_of_item (callId : String) :
    (functionOutputId envelope = some callId ↔ outputOf envelope = some (.function, callId)) ∧
      (toolSearchOutputId envelope = some callId ↔ outputOf envelope = some (.toolSearch, callId)) ∧
      (customToolOutputId envelope = some callId ↔ outputOf envelope = some (.customTool, callId)) ∧
      (functionCallId envelope = some callId ↔ requiredOutput envelope = some (.function, callId)) ∧
      (toolSearchCallId envelope = some callId ↔
        requiredOutput envelope = some (.toolSearch, callId)) ∧
      (customToolCallId envelope = some callId ↔
        requiredOutput envelope = some (.customTool, callId)) := by
  rcases envelope with ⟨_ | ⟨_, _ | _, _⟩ | ⟨_, _ | _, _⟩ | _ | ⟨_, _ | _, _, _, _, _⟩ | _ |
    ⟨_, _ | _, _, _, _, _⟩ | _, _⟩ <;>
    simp [functionOutputId, toolSearchOutputId, customToolOutputId, functionCallId,
      toolSearchCallId, customToolCallId, outputOf, requiredOutput]

lemma mem_ids :
    (callId ∈ functionOutputIds items ↔ (.function, callId) ∈ (historyRoles newV5).answers items) ∧
    (callId ∈ toolSearchOutputIds items ↔
      (.toolSearch, callId) ∈ (historyRoles newV5).answers items) ∧
    (callId ∈ customToolOutputIds items ↔
      (.customTool, callId) ∈ (historyRoles newV5).answers items) ∧
    (callId ∈ functionCallIds items ↔ (.function, callId) ∈ (historyRoles newV5).requests items) ∧
    (callId ∈ toolSearchCallIds items ↔
      (.toolSearch, callId) ∈ (historyRoles newV5).requests items) ∧
    (callId ∈ customToolCallIds items ↔
      (.customTool, callId) ∈ (historyRoles newV5).requests items) := by
  simp only [functionOutputIds, toolSearchOutputIds, customToolOutputIds, functionCallIds,
    toolSearchCallIds, customToolCallIds, Roles.answers, Roles.requests, historyRoles,
    List.mem_filterMap, ids_of_item, and_self]

/-- The outputs that the code finds missing are the answers that are missing. -/
lemma missingOutput_eq :
    missingOutput newV5 (functionOutputIds items) (toolSearchOutputIds items)
        (customToolOutputIds items) envelope =
      (historyRoles newV5).missing items envelope := by
  rcases envelope with ⟨_ | ⟨_, _ | _, _⟩ | ⟨_, _ | _, _⟩ | _ | ⟨_, _ | _, _, _, _, _⟩ | _ |
    ⟨_, _ | _, _, _, _, _⟩ | _, _⟩ <;>
    simp only [missingOutput, mem_ids newV5, Roles.missing, historyRoles, requiredOutput,
      Option.bind_some, Option.bind_none, syntheticOutput, callItemId] <;> congr

lemma isOrphan_iff :
    isOrphan (functionCallIds items) (toolSearchCallIds items) (customToolCallIds items) envelope =
        true ↔
      (historyRoles newV5).orphan items envelope = true := by
  rw [Roles.orphan_iff]
  change _ ↔ ∃ key, outputOf envelope = some key ∧ isExempt envelope = false ∧ _
  rcases envelope with ⟨_ | ⟨_, _ | _, _⟩ | ⟨_, _ | _, _⟩ | _ | ⟨_, _ | _, _, _, _, _⟩ | _ |
    ⟨_, _ | _, _, _, _, _⟩ | _, _⟩ <;>
    simp [isOrphan, mem_ids newV5, outputOf, isExempt]

/-- The second pass prunes the history. -/
lemma removeOrphanOutputs_eq :
    removeOrphanOutputs items = (historyRoles newV5).prune items := by
  have hpositions := retainFrom_collect (fun envelope =>
    if isOrphan (functionCallIds items) (toolSearchCallIds items) (customToolCallIds items) envelope
    then some () else none) 0 items
  have hprune : (items.filter fun envelope =>
      (if isOrphan (functionCallIds items) (toolSearchCallIds items) (customToolCallIds items)
        envelope then some () else none).isNone) = (historyRoles newV5).prune items := by
    refine List.filter_congr fun envelope _ => ?_
    rw [Bool.eq_iff_iff.mpr (isOrphan_iff newV5 envelope)]
    cases (historyRoles newV5).orphan items envelope <;> rfl
  rw [hprune] at hpositions
  rw [removeOrphanOutputs]
  split_ifs with hempty
  · -- Without a position to remove, the loop would keep all.
    rw [List.isEmpty_iff.mp hempty, List.map_nil, retainFrom_nil] at hpositions
    exact hpositions
  · exact hpositions

/-- The first two passes of `normalize_history`. -/
def pairHistory (items : List (ResponseItemEnvelope β)) : List (ResponseItemEnvelope β) :=
  removeOrphanOutputs (ensureCallOutputsPresent newV5 items)

lemma pairHistory_eq : pairHistory newV5 items = (historyRoles newV5).pair items := by
  have hcomplete : ensureCallOutputsPresent newV5 items = (historyRoles newV5).complete items := by
    rw [ensureCallOutputsPresent, Roles.complete]
    refine (insertBehind_append _ [] items).trans ?_
    simp only [missingOutput_eq, List.nil_append]
  rw [pairHistory, hcomplete, removeOrphanOutputs_eq newV5, Roles.pair]

/-- After the passes each call that requires an output has it, each output that is not exempt has
its call, the items that were no orphans are there in their order, and the passes would change
nothing more. -/
theorem pairHistory_well_paired (items : List (ResponseItemEnvelope β)) :
    (∀ call ∈ pairHistory newV5 items, ∀ key, requiredOutput call = some key →
        ∃ output ∈ pairHistory newV5 items, outputOf output = some key) ∧
      (∀ output ∈ pairHistory newV5 items, ∀ key, outputOf output = some key →
        isExempt output = false →
          ∃ call ∈ pairHistory newV5 items, requiredOutput call = some key) ∧
      (items.filter fun envelope => !isOrphan (functionCallIds items) (toolSearchCallIds items)
        (customToolCallIds items) envelope).Sublist (pairHistory newV5 items) ∧
      pairHistory newV5 (pairHistory newV5 items) = pairHistory newV5 items := by
  simp only [pairHistory_eq]
  refine ⟨fun call hcall key hkey => ?_, fun output houtput key hkey hexempt => ?_, ?_,
    Roles.pair_pair⟩
  · have hrequest : key ∈ (historyRoles newV5).requests ((historyRoles newV5).pair items) :=
      Roles.mem_requests.mpr ⟨call, hcall, hkey⟩
    exact Roles.mem_answers.mp (Roles.mem_answers_pair hrequest)
  · exact Roles.mem_requests.mp (Roles.mem_requests_pair houtput hkey hexempt)
  · have horphan : ∀ envelope, isOrphan (functionCallIds items) (toolSearchCallIds items)
        (customToolCallIds items) envelope = (historyRoles newV5).orphan items envelope :=
      fun envelope => Bool.eq_iff_iff.mpr (isOrphan_iff newV5 envelope)
    simp only [horphan]
    exact Roles.sublist_pair

end

/-- The history with the world state that was last sent. -/
structure History (β : Type) where
  items : List (ResponseItemEnvelope β)
  worldStateBaseline : Option β

def isFunctionCall (callId : String) (envelope : ResponseItemEnvelope β) : Bool :=
  match envelope.item with
  | .functionCall _ existing _ => existing == callId
  | _ => false

def isLocalShellCall (callId : String) (envelope : ResponseItemEnvelope β) : Bool :=
  match envelope.item with
  | .localShellCall _ (some existing) _ => existing == callId
  | _ => false

/-- Removes the counterpart of an item that has left the list. -/
def removeCorrespondingFor (items : List (ResponseItemEnvelope β)) :
    ResponseItem β → List (ResponseItemEnvelope β)
  | .functionCall _ callId _ => items.eraseP (functionOutputId · == some callId)
  | .functionCallOutput _ (some callId) _ _ _ _ =>
    if items.any (isFunctionCall callId) then items.eraseP (isFunctionCall callId)
    else items.eraseP (isLocalShellCall callId)
  | .toolSearchCall _ (some callId) _ => items.eraseP (toolSearchOutputId · == some callId)
  | .toolSearchOutput _ (some callId) _ _ _ _ => items.eraseP (toolSearchCallId · == some callId)
  | .customToolCall _ callId _ => items.eraseP (customToolOutputId · == some callId)
  | .customToolCallOutput _ callId _ _ _ => items.eraseP (customToolCallId · == some callId)
  | .localShellCall _ (some callId) _ => items.eraseP (functionOutputId · == some callId)
  | _ => items

def History.removeFirstItem (history : History β) : History β :=
  match history.items with
  | [] => history
  | removed :: items =>
    { history with items := removeCorrespondingFor items removed.item, worldStateBaseline := none }

section
variable {x : ResponseItemEnvelope β} {items : List (ResponseItemEnvelope β)}
  {k : OutputKind × String}

lemma requiredOutput_eq_none (h : outputOf x = some k) : requiredOutput x = none :=
  (historyRoles id).request_eq_none x k h

lemma outputOf_eq_none (h : requiredOutput x = some k) : outputOf x = none := by
  cases hx : outputOf x with
  | none => rfl
  | some d => rw [requiredOutput_eq_none hx] at h; cases h

/-- For a call its output is removed. -/
lemma removeCorrespondingFor_call (h : requiredOutput x = some k) :
    removeCorrespondingFor items x.item = items.eraseP (outputOf · == some k) := by
  rcases x with ⟨_ | ⟨_, _ | _, _⟩ | ⟨_, _ | _, _⟩ | _ | _ | _ | _ | _, _⟩ <;> cases h <;>
    exact congrArg items.eraseP (funext fun y => Bool.eq_iff_iff.mpr (by simp [ids_of_item]))

variable (items) in
/-- For an output a call that requires it is removed. -/
lemma removeCorrespondingFor_output (h : outputOf x = some k) :
    ∃ p : ResponseItemEnvelope β → Bool, removeCorrespondingFor items x.item = items.eraseP p ∧
      (∀ y, p y = true → requiredOutput y = some k) ∧
      (k ∈ items.filterMap requiredOutput → ∃ y ∈ items, p y = true) := by
  rcases x with ⟨_ | _ | _ | _ | ⟨_, _ | callId, _, _, _, _⟩ | _ | ⟨_, _ | _, _, _, _, _⟩ | _,
    _⟩ <;>
    cases h
  · -- a function call is removed, or a local shell call if there is none
    have hcall (y : ResponseItemEnvelope β) : requiredOutput y = some (.function, callId) ↔
        isFunctionCall callId y = true ∨ isLocalShellCall callId y = true := by
      rcases y with ⟨_ | ⟨_, _ | _, _⟩ | ⟨_, _ | _, _⟩ | _ | _ | _ | _ | _, _⟩ <;>
        simp [requiredOutput, isFunctionCall, isLocalShellCall]
    by_cases hany : items.any (isFunctionCall callId) = true
    · exact ⟨_, if_pos hany, fun y hy => (hcall y).mpr (.inl hy),
        fun _ => List.any_eq_true.mp hany⟩
    · refine ⟨_, if_neg hany, fun y hy => (hcall y).mpr (.inr hy), fun hmem => ?_⟩
      obtain ⟨y, hy, hk⟩ := List.mem_filterMap.mp hmem
      rcases (hcall y).mp hk with hk | hk
      · exact absurd (List.any_eq_true.mpr ⟨y, hy, hk⟩) hany
      · exact ⟨y, hy, hk⟩
  · exact ⟨_, rfl, by simp [ids_of_item]⟩
  · exact ⟨_, rfl, by simp [ids_of_item]⟩

lemma removeCorrespondingFor_other (hcall : requiredOutput x = none) (hout : outputOf x = none) :
    removeCorrespondingFor items x.item = items := by
  rcases x with ⟨_ | ⟨_, _ | _, _⟩ | ⟨_, _ | _, _⟩ | _ | ⟨_, _ | _, _, _, _, _⟩ | _ |
    ⟨_, _ | _, _, _, _, _⟩ | _, _⟩ <;>
    simp_all [requiredOutput, outputOf, removeCorrespondingFor]

variable (x items) in
lemma removeCorrespondingFor_sublist : (removeCorrespondingFor items x.item).Sublist items := by
  unfold removeCorrespondingFor
  repeat' split
  all_goals first | exact List.eraseP_sublist | exact .refl _

lemma balanced_removeCorrespondingFor (h : Balanced requiredOutput outputOf (x :: items)) :
    Balanced requiredOutput outputOf (removeCorrespondingFor items x.item) := by
  cases hcall : requiredOutput x with
  | some k =>
    rw [removeCorrespondingFor_call hcall]
    refine h.eraseP hcall (outputOf_eq_none hcall) ?_ (by simp)
    intro y hy
    have hout := eq_of_beq hy
    exact ⟨requiredOutput_eq_none hout, hout⟩
  | none =>
    cases hout : outputOf x with
    | some k =>
      obtain ⟨p, heq, hp, hex⟩ := removeCorrespondingFor_output items hout
      rw [heq]
      exact (h.symm.eraseP hout hcall (fun y hy => ⟨outputOf_eq_none (hp y hy), hp y hy⟩) hex).symm
    | none =>
      rw [removeCorrespondingFor_other hcall hout]
      exact h.tail hcall hout

end

/-- However often the oldest item is dropped, each key keeps as many calls as outputs, and what
remains keeps its order. -/
theorem removeFirstItem_balanced (history : History β)
    (h : Balanced requiredOutput outputOf history.items) (n : ℕ) :
    Balanced requiredOutput outputOf (History.removeFirstItem^[n] history).items ∧
      (History.removeFirstItem^[n] history).items.Sublist history.items := by
  induction n generalizing history with
  | zero => exact ⟨h, .refl _⟩
  | succ n ih =>
    obtain ⟨items, baseline⟩ := history
    rw [Function.iterate_succ_apply]
    cases items with
    | nil => exact ih _ h
    | cons x items =>
      obtain ⟨hbalanced, hsub⟩ := ih (.removeFirstItem ⟨x :: items, baseline⟩)
        (balanced_removeCorrespondingFor h)
      exact ⟨hbalanced, hsub.trans ((removeCorrespondingFor_sublist x items).cons x)⟩

theorem removeFirstItem_local_shell :
    Balanced requiredOutput outputOf (History.removeFirstItem^[1]
      ⟨[.new (.localShellCall none (some "a") 0), .new (.other 1),
        .new (.functionCallOutput none (some "a") none none (.fromText "") none)], some 2⟩).items :=
  (removeFirstItem_balanced _ (fun _ => rfl) 1).1

end ExperienceCodex.ContextManager

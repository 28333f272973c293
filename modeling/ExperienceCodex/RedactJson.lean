import ExperienceCodex.Redact

/-!
# Secret slots of a JSON value

A value that is stored under a key with a secret name is to be masked, whatever it is.  A text is,
unless it begins like the mark of an earlier redaction; a number, an object or an array is not.
-/

namespace ExperienceCodex.Redact

open Text Slices Lines Option Redactor Bool

/-- The lowercase name of a key holds the name of a secret. -/
def isSecretName (key : String) : Bool :=
  secretKeys.any fun name => holds (lowerFrom [] key.toList) name

section
variable (text : String)

mutual

/-- A value in which a text takes the place of everything that is stored under a secret name. -/
def fillSecrets : Json → Json
  | .object members => .object (fillMembers members)
  | .array values => .array (fillValues values)
  | other => other

def fillValues : List Json → List Json
  | [] => []
  | value :: values => fillSecrets value :: fillValues values

def fillMembers : List (String × Json) → List (String × Json)
  | [] => []
  | (key, item) :: members =>
    (key, if isSecretName key then .string text else fillSecrets item) :: fillMembers members

end

end

section
variable (slot : String → Json → Bool)

mutual

/-- What is stored under a secret name, and under no other within, passes a test. -/
def allSecrets : Json → Bool
  | .object members => allMembers members
  | .array values => allValues values
  | _ => true

def allValues : List Json → Bool
  | [] => true
  | value :: values => allSecrets value && allValues values

def allMembers : List (String × Json) → Bool
  | [] => true
  | (key, item) :: members =>
    (if isSecretName key then slot key item else allSecrets item) && allMembers members

end

end

/-- Two values that differ at most in what is stored under secret names. -/
def SameButSecrets (value value' : Json) : Prop :=
  fillSecrets "" value = fillSecrets "" value'

/-- A text that does not look like the mark of an earlier redaction, or is the mark of a secret,
under a name that does not either. -/
def maskedSlot (key : String) : Json → Bool
  | .string text =>
    (!isRedactionMarker text.toList || text == "<masked:secret>") &&
      !holds (lowerFrom [] key.toList) "<masked:"
  | _ => false

section
variable {self : Redactor} {key : String} {item : Json} {hint : Option String}

lemma containsAny_secretKeys (hname : isSecretName key = true)
    (hkey : holds (lowerFrom [] key.toList) "<masked:" = false) :
    containsAny (lowerFrom [] key.toList) secretKeys = true := by
  simp only [containsAny, hkey, Bool.not_false, Bool.and_true]
  exact hname

lemma redactString_of_secret {text : List Char} (hname : isSecretName key = true)
    (hkey : holds (lowerFrom [] key.toList) "<masked:" = false) :
    self.redactString (some key) text =
      some (if isRedactionMarker text then text else "<masked:secret>".toList) := by
  rw [redactString]
  by_cases htext : isRedactionMarker text = true
  · rw [if_pos htext, if_pos htext]
  · rw [if_neg htext, if_neg htext]
    exact if_pos (containsAny_secretKeys hname hkey)

lemma redactValue_of_maskedSlot (hname : isSecretName key = true)
    (hslot : maskedSlot key item = true) :
    self.redactValue (some key) item = some (.string "<masked:secret>") := by
  cases item with
  | string text =>
    rw [maskedSlot, and_eq_true, or_eq_true, not_eq_true', not_eq_true',
      beq_iff_eq] at hslot
    obtain ⟨htext, hkey⟩ := hslot
    rw [redactValue, redactString_of_secret hname hkey, map_some]
    rcases htext with htext | rfl
    · rw [htext]
      rfl
    · rw [if_pos (by decide)]
      rfl
  | _ => cases hslot

lemma maskedSlot_blank (h : maskedSlot key item = true) : maskedSlot key (.string "") = true := by
  cases item with
  | string text => exact (and_eq_true_iff.mp h).2
  | _ => cases h

mutual

/-- Masked slots do not show in the output. -/
lemma redactValue_fillSecrets (hint : Option String) :
    ∀ value : Json, allSecrets maskedSlot value = true →
      self.redactValue hint (fillSecrets "" value) = self.redactValue hint value
  | .object members, h => by
    rw [fillSecrets, redactValue, redactValue, redactMembers_fillMembers members h]
  | .array values, h => by
    rw [fillSecrets, redactValue, redactValue,
      redactValues_fillValues hint values h]
  | .null, _ | .bool _, _ | .number _, _ | .string _, _ => rfl

lemma redactValues_fillValues (hint : Option String) :
    ∀ values : List Json, allValues maskedSlot values = true →
      self.redactValues hint (fillValues "" values) = self.redactValues hint values
  | [], _ => rfl
  | value :: values, h => by
    obtain ⟨h, hrest⟩ := and_eq_true_iff.mp h
    rw [fillValues, redactValues, redactValues, redactValue_fillSecrets hint value h,
      redactValues_fillValues hint values hrest]

lemma redactMembers_fillMembers :
    ∀ members : List (String × Json), allMembers maskedSlot members = true →
      self.redactMembers (fillMembers "" members) = self.redactMembers members
  | [], _ => rfl
  | (key, item) :: members, h => by
    obtain ⟨h, hrest⟩ := and_eq_true_iff.mp h
    rw [fillMembers, redactMembers, redactMembers,
      redactMembers_fillMembers members hrest]
    by_cases hname : isSecretName key = true
    · rw [if_pos hname] at h ⊢
      rw [redactValue_of_maskedSlot hname h, redactValue_of_maskedSlot hname (maskedSlot_blank h)]
    · rw [if_neg hname] at h ⊢
      rw [redactValue_fillSecrets (some key) item h]

end

/-- A line that no rule applies to is kept. -/
lemma redactLine_of_plain {table : CharTable} {mode : RedactMode} {line : List Char}
    (hmark : carriesMarker line = false) (hsecret : maskSecretValue line = some line)
    (hbearer : replaceCaseInsensitive line "bearer " "<masked:bearer>" mode = some line)
    (hurl : maskUrlUserinfo line = line) (htokens : maskPrefixedTokens table line mode = line) :
    redactLine table mode line = some line := by
  rw [redactLine, chars_char, hmark, hsecret]
  simp only [false_eq_true, if_false, bind_eq_bind, bind_some, hbearer, hurl,
    htokens]
  rfl

lemma redactLine_letters (table : CharTable) (mode : RedactMode) :
    redactLine table mode ['a'] = some ['a'] ∧
      redactLine table mode ['b', 'b'] = some ['b', 'b'] := by
  have ha : isTokenChar table 'a' = true := by
    rw [isTokenChar, table.ascii 'a' (by decide)]
    rfl
  have hb : isTokenChar table 'b' = true := by
    rw [isTokenChar, table.ascii 'b' (by decide)]
    rfl
  constructor
  · refine redactLine_of_plain (by decide) (by decide)
      (by cases mode <;> decide) (by decide) ?_
    cases mode <;> simp [maskPrefixedTokens, maskTokensFrom, Shown.char, ha] <;> decide
  · refine redactLine_of_plain (by decide) (by decide)
      (by cases mode <;> decide) (by decide) ?_
    cases mode <;> simp [maskPrefixedTokens, maskTokensFrom, Shown.char, hb] <;> decide

lemma redactText_of_line {table : CharTable} {mode : RedactMode} {line : List Char}
    (hlines : lines line = [line]) (hlast : line.getLast? ≠ some '\n')
    (hprivate : holds line "PRIVATE KEY-----" = false)
    (hline : redactLine table mode line = some line) : redactText table mode line = some line := by
  rw [redactText]
  split_ifs with hmode
  · rfl
  · simp [hlines, redactLines, hprivate, hline]

/-- A slot that shows no difference to two texts of letters is masked. -/
lemma maskedSlot_of_eq {out : Json} (hname : isSecretName key = true)
    (h : self.redactValue (some key) item = some out)
    (ha : self.redactValue (some key) (.string "a") = some out)
    (hb : self.redactValue (some key) (.string "bb") = some out) : maskedSlot key item = true := by
  have hkey : holds (lowerFrom [] key.toList) "<masked:" = false := by
    refine eq_false_iff.mpr fun hmark => ?_
    -- under a name that looks like a mark, the texts of letters are told apart
    have hletters := redactLine_letters self.table self.mode
    have hkeys : ∀ needles,
        containsAny (lowerFrom [] ((some key).getD "").toList) needles = false :=
      fun _ => by simp [containsAny, hmark]
    have hplain : ∀ text : List Char, isRedactionMarker text = false →
        isAbsoluteLike text = false → startsWithAny text ["http://", "https://"] = false →
        looksIdLike text = false →
        self.redactString (some key) text = redactText self.table self.mode text := by
      intro text hmark habsolute hurl hid
      simp only [redactString, hkeys, hmark, habsolute, hurl, hid, Bool.false_or,
        Bool.false_eq_true, if_false]
    rw [redactValue, show "a".toList = ['a'] from rfl,
      hplain _ (by decide) (by decide) (by decide) (by decide),
      redactText_of_line (by decide) (by decide) (by decide) hletters.1] at ha
    rw [redactValue, show "bb".toList = ['b', 'b'] from rfl,
      hplain _ (by decide) (by decide) (by decide) (by decide),
      redactText_of_line (by decide) (by decide) (by decide) hletters.2, ← ha, map_some,
      map_some, some_inj, Json.string.injEq] at hb
    revert hb
    decide
  rw [redactValue, redactString_of_secret hname hkey, map_some,
    if_neg (by decide)] at ha
  obtain rfl := some_inj.mp ha
  cases item with
  | string text =>
    rw [redactValue, redactString_of_secret hname hkey, map_some, some_inj,
      Json.string.injEq] at h
    rw [maskedSlot, hkey, Bool.not_false, Bool.and_true, Bool.or_eq_true, Bool.not_eq_true',
      beq_iff_eq]
    by_cases hmarker : isRedactionMarker text.toList = true
    · rw [if_pos hmarker, String.ofList_toList] at h
      exact .inr h
    · exact .inl (not_eq_true _ ▸ hmarker)
  | null => cases h
  | bool b => cases h
  | number n => cases h
  | array values =>
    rw [redactValue] at h
    obtain ⟨_, -, hout⟩ := map_eq_some_iff.mp h
    cases hout
  | object members =>
    rw [redactValue] at h
    obtain ⟨_, -, hout⟩ := map_eq_some_iff.mp h
    cases hout

mutual

/-- A value that shows no difference to the texts of letters in its slots has masked slots. -/
lemma allSecrets_of_eq (hint : Option String) :
    ∀ (value out : Json), self.redactValue hint value = some out →
      self.redactValue hint (fillSecrets "a" value) = some out →
      self.redactValue hint (fillSecrets "bb" value) = some out →
      allSecrets maskedSlot value = true
  | .object members, out, h, ha, hb => by
    rw [redactValue] at h
    rw [fillSecrets, redactValue] at ha hb
    obtain ⟨out, hmembers, rfl⟩ := map_eq_some_iff.mp h
    obtain ⟨_, ha, hout⟩ := map_eq_some_iff.mp ha
    cases hout
    obtain ⟨_, hb, hout⟩ := map_eq_some_iff.mp hb
    cases hout
    exact allMembers_of_eq members out hmembers ha hb
  | .array values, out, h, ha, hb => by
    rw [redactValue] at h
    rw [fillSecrets, redactValue] at ha hb
    obtain ⟨out, hvals, rfl⟩ := map_eq_some_iff.mp h
    obtain ⟨_, ha, hout⟩ := map_eq_some_iff.mp ha
    cases hout
    obtain ⟨_, hb, hout⟩ := map_eq_some_iff.mp hb
    cases hout
    exact allValues_of_eq hint values out hvals ha hb
  | .null, _, _, _, _ | .bool _, _, _, _, _ | .number _, _, _, _, _ | .string _, _, _, _, _ => rfl

lemma allValues_of_eq (hint : Option String) :
    ∀ (values out : List Json), self.redactValues hint values = some out →
      self.redactValues hint (fillValues "a" values) = some out →
      self.redactValues hint (fillValues "bb" values) = some out →
      allValues maskedSlot values = true
  | [], _, _, _, _ => rfl
  | value :: values, out, h, ha, hb => by
    obtain ⟨first, hfst, h⟩ := bind_eq_some_iff.mp h
    obtain ⟨rest, hrest, h⟩ := bind_eq_some_iff.mp h
    cases h
    obtain ⟨_, hfirstA, ha⟩ := bind_eq_some_iff.mp ha
    obtain ⟨_, hrestA, ha⟩ := bind_eq_some_iff.mp ha
    cases ha
    obtain ⟨_, hfirstB, hb⟩ := bind_eq_some_iff.mp hb
    obtain ⟨_, hrestB, hb⟩ := bind_eq_some_iff.mp hb
    cases hb
    exact and_eq_true_iff.mpr ⟨allSecrets_of_eq hint value first hfst hfirstA hfirstB,
      allValues_of_eq hint values rest hrest hrestA hrestB⟩

lemma allMembers_of_eq :
    ∀ (members out : List (String × Json)), self.redactMembers members = some out →
      self.redactMembers (fillMembers "a" members) = some out →
      self.redactMembers (fillMembers "bb" members) = some out →
      allMembers maskedSlot members = true
  | [], _, _, _, _ => rfl
  | (key, item) :: members, out, h, ha, hb => by
    obtain ⟨first, hfst, h⟩ := bind_eq_some_iff.mp h
    obtain ⟨rest, hrest, h⟩ := bind_eq_some_iff.mp h
    cases h
    obtain ⟨_, hfirstA, ha⟩ := bind_eq_some_iff.mp ha
    obtain ⟨_, hrestA, ha⟩ := bind_eq_some_iff.mp ha
    cases ha
    obtain ⟨_, hfirstB, hb⟩ := bind_eq_some_iff.mp hb
    obtain ⟨_, hrestB, hb⟩ := bind_eq_some_iff.mp hb
    cases hb
    refine and_eq_true_iff.mpr ⟨?_, allMembers_of_eq members rest hrest hrestA hrestB⟩
    by_cases hname : isSecretName key = true
    · rw [if_pos hname] at hfirstA hfirstB ⊢
      exact maskedSlot_of_eq hname hfst hfirstA hfirstB
    · rw [if_neg hname] at hfirstA hfirstB ⊢
      exact allSecrets_of_eq (some key) item first hfst hfirstA hfirstB

end

end

/-- A text that does not look like the mark of an earlier redaction. -/
def plainSlot (_ : String) : Json → Bool
  | .string text => !isRedactionMarker text.toList
  | _ => false

section
variable {text : String}

mutual

lemma fillSecrets_fillSecrets (blank : String) :
    ∀ value : Json, fillSecrets blank (fillSecrets text value) = fillSecrets blank value
  | .object members => congrArg Json.object (fillMembers_fillMembers blank members)
  | .array values => congrArg Json.array (fillValues_fillValues blank values)
  | .null | .bool _ | .number _ | .string _ => rfl

lemma fillValues_fillValues (blank : String) :
    ∀ values : List Json, fillValues blank (fillValues text values) = fillValues blank values
  | [] => rfl
  | value :: values => by
    rw [fillValues, fillValues, fillValues, fillSecrets_fillSecrets blank value,
      fillValues_fillValues blank values]

lemma fillMembers_fillMembers (blank : String) :
    ∀ members : List (String × Json),
      fillMembers blank (fillMembers text members) = fillMembers blank members
  | [] => rfl
  | (key, item) :: members => by
    rw [fillMembers, fillMembers, fillMembers, fillMembers_fillMembers blank members]
    by_cases hname : isSecretName key = true
    · rw [if_pos hname, if_pos hname]
    · rw [if_neg hname, if_neg hname, if_neg hname, fillSecrets_fillSecrets blank item]

end

mutual

lemma allSecrets_fillSecrets (htext : isRedactionMarker text.toList = false) :
    ∀ value : Json, allSecrets plainSlot (fillSecrets text value) = true
  | .object members => allMembers_fillMembers htext members
  | .array values => allValues_fillValues htext values
  | .null | .bool _ | .number _ | .string _ => rfl

lemma allValues_fillValues (htext : isRedactionMarker text.toList = false) :
    ∀ values : List Json, allValues plainSlot (fillValues text values) = true
  | [] => rfl
  | value :: values => by
    rw [fillValues, allValues, allSecrets_fillSecrets htext value,
      allValues_fillValues htext values]
    rfl

lemma allMembers_fillMembers (htext : isRedactionMarker text.toList = false) :
    ∀ members : List (String × Json), allMembers plainSlot (fillMembers text members) = true
  | [] => rfl
  | (key, item) :: members => by
    rw [fillMembers, allMembers, allMembers_fillMembers htext members, Bool.and_true]
    by_cases hname : isSecretName key = true
    · rw [if_pos hname, if_pos hname, plainSlot, htext]
      rfl
    · rw [if_neg hname, if_neg hname]
      exact allSecrets_fillSecrets htext item

end

end

/-- Values that differ only in their secret slots redact alike when the slots hold texts that do not
look like marks; and a value with any other slot redacts differently from one in which texts that do
not look like marks are stored in its slots. -/
theorem redactJson_hides_iff (self : Redactor) (hmode : self.mode ≠ .off) :
    (∀ value value' hint, SameButSecrets value value' → allSecrets maskedSlot value = true →
      allSecrets maskedSlot value' = true →
      self.redactJson value hint = self.redactJson value' hint) ∧
    ∀ value hint out, self.redactJson value hint = some out →
      allSecrets maskedSlot value = false →
      ∃ value', SameButSecrets value value' ∧ allSecrets plainSlot value' = true ∧
        self.redactJson value' hint ≠ some out := by
  have hon : ∀ value hint, self.redactJson value hint = self.redactValue hint value :=
    fun _ _ => if_neg hmode
  constructor
  · intro value value' hint hsame h h'
    rw [hon, hon, ← redactValue_fillSecrets hint value h, hsame,
      redactValue_fillSecrets hint value' h']
  · intro value hint out hout hslots
    by_contra hall
    push Not at hall
    have hletters : ∀ text : String, isRedactionMarker text.toList = false →
        self.redactValue hint (fillSecrets text value) = some out := by
      intro text htext
      rw [← hon]
      exact hall _ (fillSecrets_fillSecrets "" value).symm (allSecrets_fillSecrets htext value)
    rw [hon] at hout
    have hmasked := allSecrets_of_eq hint value out hout (hletters "a" (by decide))
      (hletters "bb" (by decide))
    rw [hmasked] at hslots
    cases hslots

/-- Only ASCII letters and digits. -/
def asciiTable : CharTable where
  isAlphanumeric := Char.isAlphanum
  ascii _ _ := rfl

def plainRedactor : Redactor where
  disclosure := .structure
  mode := .standard
  table := asciiTable
  hmac _ := []
  sha256 _ := []

def passwordValue (item : Json) : Json :=
  .object [("accounts", .array [.object [("name", .string "ann"), ("Password", item)]])]

theorem redactJson_hides_password :
    plainRedactor.redactJson (passwordValue (.string "hunter2")) none =
        plainRedactor.redactJson (passwordValue (.string "swordfish")) none ∧
      ∃ value', SameButSecrets (passwordValue (.bool true)) value' ∧
        allSecrets plainSlot value' = true ∧
        plainRedactor.redactJson value' none ≠ some (passwordValue (.bool true)) :=
  ⟨(redactJson_hides_iff plainRedactor (by decide)).1 _ _ none rfl (by decide)
      (by decide),
    (redactJson_hides_iff plainRedactor (by decide)).2 (passwordValue (.bool true)) none _ rfl
      (by decide)⟩

theorem redactJson_shows_pin :
    SameButSecrets (passwordValue (.number (.posInt 1234)))
        (passwordValue (.number (.posInt 5678))) ∧
      plainRedactor.redactJson (passwordValue (.number (.posInt 1234))) none =
        some (passwordValue (.number (.posInt 1234))) ∧
      plainRedactor.redactJson (passwordValue (.number (.posInt 5678))) none =
        some (passwordValue (.number (.posInt 5678))) ∧
      passwordValue (.number (.posInt 1234)) ≠ passwordValue (.number (.posInt 5678)) := by
  refine ⟨?_, rfl, rfl, fun h => ?_⟩
  · have hnames : isSecretName "Password" = true ∧ isSecretName "name" = false ∧
        isSecretName "accounts" = false := by decide
    simp [SameButSecrets, passwordValue, fillSecrets, fillMembers, fillValues, hnames]
  · simp [passwordValue] at h

end ExperienceCodex.Redact

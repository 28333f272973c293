import ExperienceCodex.MessageFraming

/-!
# Relay records in their order

The cipher counts the records it receives, so each must reach it once and in its place.  Records
that arrive early wait, in a window of bounded distance and size; copies are dropped.

What was released is the first record of each number, from zero on without a gap, and what waits is
the first record of each later number that has arrived.  Records that stay within the window are
all released, in whatever order they arrive.
-/

namespace ExperienceCodex.NoiseRelay

open List Framing AList

def maxReorderDistance : ℕ := 64

def maxPendingBytes : ℕ := 1024 * 1024

/-- Records that wait, by their number. -/
abbrev Pending := AList (fun _ : ℕ => List UInt8)

/-- The bytes of the records that wait. -/
def Pending.bytes (pending : Pending) : ℕ :=
  (pending.entries.map fun entry => entry.2.length).sum

structure OrderedCiphertextFrames where
  nextSeq : ℕ := 0
  pending : Pending := ∅
  pendingBytes : ℕ := 0
deriving DecidableEq

namespace OrderedCiphertextFrames

/-- The next `u32`, if there is one. -/
def advance (self : OrderedCiphertextFrames) : Except ExecServerError OrderedCiphertextFrames :=
  if self.nextSeq + 1 < 2 ^ 32 then .ok { self with nextSeq := self.nextSeq + 1 }
  else .error (.protocol "Noise relay sequence number exhausted")

/-- Releases what waits under the next number, until there is a gap. -/
def release : ℕ → OrderedCiphertextFrames → List (List UInt8) →
    Except ExecServerError (List (List UInt8)) × OrderedCiphertextFrames
  | 0, self, ready => (.ok ready, self)
  | fuel + 1, self, ready =>
    match self.pending.lookup self.nextSeq with
    | none => (.ok ready, self)
    | some payload =>
      let self := { self with
        pending := self.pending.erase self.nextSeq
        pendingBytes := self.pendingBytes - payload.length }
      match self.advance with
      | .error error => (.error error, self)
      | .ok self => release fuel self (ready ++ [payload])

/-- Accepts a record and gives the records that are now in order. -/
def push (self : OrderedCiphertextFrames) (record : ℕ × List UInt8) :
    Except ExecServerError (List (List UInt8)) × OrderedCiphertextFrames :=
  let seq := record.1
  let payload := record.2
  -- The first record of a number is kept; later copies are duplicates.
  if seq < self.nextSeq ∨ seq ∈ self.pending then (.ok [], self)
  else if seq > self.nextSeq then
    if seq - self.nextSeq > maxReorderDistance then
      (.error (.protocol "Noise relay ciphertext exceeds reorder window"), self)
    else
      let pendingBytes := self.pendingBytes + payload.length
      if pendingBytes > maxPendingBytes then
        (.error (.protocol "Noise relay pending ciphertext buffer is full"), self)
      else (.ok [], { self with pending := self.pending.insert seq payload, pendingBytes })
  else
    match self.advance with
    | .error error => (.error error, self)
    | .ok self => release self.pending.entries.length self [payload]

end OrderedCiphertextFrames

section
variable {pending : Pending} {seq : ℕ} {payload : List UInt8}

section
variable (h : pending.lookup seq = some payload)
include h

/-- A waiting record can be taken out of the list of the entries. -/
lemma exists_entries_of_lookup :
    ∃ front back, pending.entries = front ++ ⟨seq, payload⟩ :: back ∧
      (pending.erase seq).entries = front ++ back := by
  have hmem : seq ∈ pending := lookup_isSome.mp (by rw [h]; rfl)
  obtain ⟨payload', front, back, hfront, hents, herase⟩ := exists_of_kerase hmem
  have hentry : (⟨seq, payload'⟩ : (_ : ℕ) × List UInt8) ∈ pending.entries := by
    rw [hents]
    exact mem_append_right _ mem_cons_self
  have hlook : pending.lookup seq = some payload' := mem_dlookup pending.nodupKeys hentry
  cases hlook.symm.trans h
  exact ⟨front, back, hents, herase⟩

lemma bytes_erase :
    pending.bytes = Pending.bytes (pending.erase seq) + payload.length := by
  obtain ⟨front, back, hents, herase⟩ := exists_entries_of_lookup h
  rw [Pending.bytes, Pending.bytes, hents, herase]
  simp only [map_append, map_cons, sum_append, sum_cons]
  omega

lemma length_erase :
    pending.entries.length = (pending.erase seq).entries.length + 1 := by
  obtain ⟨front, back, hents, herase⟩ := exists_entries_of_lookup h
  rw [hents, herase, length_append, length_append, length_cons]
  omega

end

end

/-- The receiver after some records have arrived and some have been released. -/
structure Tracks (arrivals : List (ℕ × List UInt8)) (released : List (List UInt8))
    (frames : OrderedCiphertextFrames) : Prop where
  /-- The first record of each number below the next one has been released. -/
  released : released.map some = (List.range frames.nextSeq).map fun seq => arrivals.lookup seq
  /-- The first record of each later number waits. -/
  pending : ∀ seq, frames.pending.lookup seq =
    if frames.nextSeq ≤ seq then arrivals.lookup seq else none
  bytes : frames.pendingBytes = frames.pending.bytes
  bounded : frames.pendingBytes ≤ maxPendingBytes
  near : ∀ seq ∈ frames.pending, seq ≤ frames.nextSeq + maxReorderDistance

section
variable {arrivals : List (ℕ × List UInt8)} {released ready : List (List UInt8)}
  {frames after : OrderedCiphertextFrames} {seq : ℕ} {payload : List UInt8}

lemma lookup_concat (number : ℕ) :
    (arrivals ++ [(seq, payload)]).lookup number =
      (arrivals.lookup number).or (if number = seq then some payload else none) := by
  rw [lookup_append, lookup_cons, lookup_nil]
  by_cases h : number = seq
  · rw [if_pos h, beq_iff_eq.mpr h]
  · rw [if_neg h, beq_eq_false_iff_ne.mpr h]

section
variable (h : Tracks arrivals released frames)
include h

lemma Tracks.lookup_of_lt (hseq : seq < frames.nextSeq) :
    arrivals.lookup seq ≠ none := by
  intro hnone
  have hmem : none ∈ released.map some := by
    rw [h.released]
    exact mem_map.mpr ⟨seq, mem_range.mpr hseq, hnone⟩
  obtain ⟨payload, -, hpayload⟩ := mem_map.mp hmem
  cases hpayload

lemma Tracks.mem_pending_iff :
    seq ∈ frames.pending ↔ frames.nextSeq ≤ seq ∧ arrivals.lookup seq ≠ none := by
  rw [← lookup_isSome, h.pending, ← Option.isSome_iff_ne_none]
  split_ifs with hle <;> simp [hle]

lemma Tracks.copy (hseq : arrivals.lookup seq ≠ none) :
    Tracks (arrivals ++ [(seq, payload)]) released frames := by
  have hlook : ∀ number, (arrivals ++ [(seq, payload)]).lookup number = arrivals.lookup number :=
    by
    intro number
    rw [lookup_concat]
    by_cases hnum : number = seq
    · subst hnum
      obtain ⟨first, hfst⟩ := Option.ne_none_iff_exists'.mp hseq
      rw [hfst, Option.some_or]
    · rw [if_neg hnum, Option.or_none]
  exact { h with
    released := by simp only [hlook, h.released]
    pending := by simp only [hlook, h.pending, implies_true] }

lemma Tracks.wait (hlater : frames.nextSeq < seq)
    (hnew : seq ∉ frames.pending) (hnear : seq ≤ frames.nextSeq + maxReorderDistance)
    (hbytes : frames.pendingBytes + payload.length ≤ maxPendingBytes) :
    Tracks (arrivals ++ [(seq, payload)]) released
      { frames with
        pending := frames.pending.insert seq payload
        pendingBytes := frames.pendingBytes + payload.length } := by
  have hnone : arrivals.lookup seq = none := by
    by_contra hsome
    exact hnew (h.mem_pending_iff.mpr ⟨hlater.le, hsome⟩)
  refine ⟨?_, ?_, ?_, hbytes, ?_⟩
  · rw [h.released]
    refine map_congr_left fun number hnum => ?_
    have hne : number ≠ seq := (lt_trans (mem_range.mp hnum) hlater).ne
    rw [lookup_concat, if_neg hne, Option.or_none]
  · intro number
    show (frames.pending.insert seq payload).lookup number = _
    by_cases hnum : number = seq
    · subst hnum
      rw [lookup_insert, if_pos hlater.le, lookup_concat, hnone, if_pos rfl, Option.none_or]
    · rw [lookup_insert_ne hnum, lookup_concat, if_neg hnum, Option.or_none]
      exact h.pending number
  · show frames.pendingBytes + payload.length = _
    rw [Pending.bytes, entries_insert_of_notMem hnew, map_cons, sum_cons, Nat.add_comm, h.bytes]
    rfl
  · intro number hnum
    rcases (mem_insert _).mp hnum with rfl | hmem
    · exact hnear
    · exact h.near number hmem

lemma Tracks.expected (hnone : arrivals.lookup frames.nextSeq = none) :
    Tracks (arrivals ++ [(frames.nextSeq, payload)]) (released ++ [payload])
      { frames with nextSeq := frames.nextSeq + 1 } := by
  have hlook : ∀ number, number ≠ frames.nextSeq →
      (arrivals ++ [(frames.nextSeq, payload)]).lookup number = arrivals.lookup number := by
    intro number hnum
    rw [lookup_concat, if_neg hnum, Option.or_none]
  refine { h with released := ?_, pending := ?_, near := ?_ }
  · have hbelow : (range frames.nextSeq).map
        (fun seq => (arrivals ++ [(frames.nextSeq, payload)]).lookup seq) = released.map some := by
      rw [h.released]
      exact map_congr_left fun number hnum => hlook number (mem_range.mp hnum).ne
    rw [range_succ, map_append, map_append, hbelow, map_singleton,
      map_singleton, lookup_concat, hnone, if_pos rfl, Option.none_or]
  · intro number
    show frames.pending.lookup number = if frames.nextSeq + 1 ≤ number then _ else none
    rw [h.pending]
    rcases lt_trichotomy number frames.nextSeq with hlt | rfl | hgt
    · rw [if_neg (by omega), if_neg (by omega)]
    · rw [if_pos le_rfl, if_neg (by omega), hnone]
    · rw [if_pos hgt.le, if_pos (Nat.succ_le_of_lt hgt), hlook number hgt.ne']
  · intro number hnum
    have hle := h.near number hnum
    show number ≤ frames.nextSeq + 1 + maxReorderDistance
    omega

lemma Tracks.release (hpayload : frames.pending.lookup frames.nextSeq = some payload) :
    Tracks arrivals (released ++ [payload])
      { nextSeq := frames.nextSeq + 1
        pending := frames.pending.erase frames.nextSeq
        pendingBytes := frames.pendingBytes - payload.length } := by
  have hbytes := bytes_erase hpayload
  have harrived : arrivals.lookup frames.nextSeq = some payload := by
    rw [h.pending, if_pos le_rfl] at hpayload
    exact hpayload
  refine ⟨?_, ?_, ?_, ?_, ?_⟩
  · rw [range_succ, map_append, map_append, h.released, map_singleton, map_singleton, harrived]
  · intro number
    show (frames.pending.erase frames.nextSeq).lookup number =
      if frames.nextSeq + 1 ≤ number then _ else none
    by_cases hnum : number = frames.nextSeq
    · rw [hnum, lookup_erase, if_neg (by omega)]
    · rw [lookup_erase_ne hnum, h.pending]
      by_cases hle : frames.nextSeq ≤ number
      · rw [if_pos hle, if_pos (by omega)]
      · rw [if_neg hle, if_neg (by omega)]
  · show frames.pendingBytes - payload.length = _
    rw [h.bytes, hbytes, Nat.add_sub_cancel]
  · exact (Nat.sub_le ..).trans h.bounded
  · intro number hnum
    have hle := h.near number (mem_erase.mp hnum).2
    show number ≤ frames.nextSeq + 1 + maxReorderDistance
    omega

end

/-- Between two arrivals the next number is missing. -/
structure Settled (arrivals : List (ℕ × List UInt8)) (released : List (List UInt8))
    (frames : OrderedCiphertextFrames) : Prop extends Tracks arrivals released frames where
  gap : arrivals.lookup frames.nextSeq = none

lemma settled_nil : Settled [] [] {} where
  released := rfl
  pending seq := by
    rw [lookup_nil, ite_self]
    rfl
  bytes := rfl
  bounded := Nat.zero_le _
  near seq hseq := absurd hseq (notMem_empty seq)
  gap := rfl

lemma Settled.pending_after (h : Settled arrivals released frames) (hseq : seq ∈ frames.pending) :
    frames.nextSeq < seq := by
  obtain ⟨hle, hsome⟩ := h.mem_pending_iff.mp hseq
  refine lt_of_le_of_ne hle ?_
  rintro rfl
  exact hsome h.gap

lemma release_ok {fuel : ℕ} {results : List (List UInt8)} (h : Tracks arrivals released frames)
    (hfuel : frames.pending.entries.length ≤ fuel)
    (hrun : frames.release fuel ready = (.ok results, after)) :
    ∃ more, results = ready ++ more ∧ Settled arrivals (released ++ more) after := by
  induction fuel generalizing frames released ready with
  | zero =>
    cases hrun
    have hempty : after.pending.lookup after.nextSeq = none := by
      rw [AList.lookup, eq_nil_of_length_eq_zero (Nat.le_zero.mp hfuel), dlookup_nil]
    rw [h.pending, if_pos le_rfl] at hempty
    exact ⟨[], (append_nil _).symm, by rw [append_nil]; exact { h with gap := hempty }⟩
  | succ fuel ih =>
    rw [OrderedCiphertextFrames.release] at hrun
    cases hlook : AList.lookup frames.nextSeq frames.pending with
    | none =>
      rw [hlook] at hrun
      cases hrun
      rw [h.pending, if_pos le_rfl] at hlook
      exact ⟨[], (append_nil _).symm, by rw [append_nil]; exact { h with gap := hlook }⟩
    | some payload =>
      rw [hlook] at hrun
      dsimp only [OrderedCiphertextFrames.advance] at hrun
      by_cases hmax : frames.nextSeq + 1 < 2 ^ 32
      · rw [if_pos hmax] at hrun
        have hlen := length_erase hlook
        obtain ⟨more, rfl, hsettled⟩ := ih (h.release hlook) (by dsimp only; omega) hrun
        refine ⟨payload :: more, ?_, ?_⟩
        · rw [append_assoc, singleton_append]
        · rwa [append_assoc, singleton_append] at hsettled
      · rw [if_neg hmax] at hrun
        cases hrun

variable {record : ℕ × List UInt8}

lemma push_ok {results : List (List UInt8)}
    (h : Settled arrivals released frames) (hpush : frames.push record = (.ok results, after)) :
    Settled (arrivals ++ [record]) (released ++ results) after := by
  obtain ⟨seq, payload⟩ := record
  unfold OrderedCiphertextFrames.push at hpush
  dsimp only at hpush
  -- A record of another number leaves the gap.
  have hgap : seq ≠ frames.nextSeq →
      (arrivals ++ [(seq, payload)]).lookup frames.nextSeq = none := by
    intro hne
    rw [lookup_concat, h.gap, if_neg hne.symm, Option.none_or]
  by_cases hcopy : seq < frames.nextSeq ∨ seq ∈ frames.pending
  · rw [if_pos hcopy] at hpush
    cases hpush
    have hsome : arrivals.lookup seq ≠ none :=
      hcopy.elim h.lookup_of_lt fun hmem => (h.mem_pending_iff.mp hmem).2
    rw [append_nil]
    refine { h.copy hsome with gap := hgap ?_ }
    rintro rfl
    exact hsome h.gap
  rw [if_neg hcopy] at hpush
  obtain ⟨hnotBefore, hnotPending⟩ := not_or.mp hcopy
  by_cases hlater : seq > frames.nextSeq
  · rw [if_pos hlater] at hpush
    by_cases hfar : seq - frames.nextSeq > maxReorderDistance
    · rw [if_pos hfar] at hpush
      cases hpush
    rw [if_neg hfar] at hpush
    by_cases hfull : frames.pendingBytes + payload.length > maxPendingBytes
    · rw [if_pos hfull] at hpush
      cases hpush
    rw [if_neg hfull] at hpush
    cases hpush
    rw [append_nil]
    exact { h.wait hlater hnotPending (by omega) (by omega) with gap := hgap hlater.ne' }
  · obtain rfl : seq = frames.nextSeq := by omega
    rw [if_neg hlater] at hpush
    dsimp only [OrderedCiphertextFrames.advance] at hpush
    by_cases hmax : frames.nextSeq + 1 < 2 ^ 32
    · rw [if_pos hmax] at hpush
      obtain ⟨more, rfl, hsettled⟩ := release_ok (h.expected h.gap) le_rfl hpush
      rwa [append_assoc] at hsettled
    · rw [if_neg hmax] at hpush
      cases hpush

/-- Where the numbers that have arrived are followed by others, a release succeeds. -/
lemma exists_release (h : Tracks arrivals released frames)
    (hbelow : ∀ seq, arrivals.lookup seq ≠ none → seq + 1 < 2 ^ 32) (fuel : ℕ) :
    ∃ results after, frames.release fuel ready = (.ok results, after) := by
  induction fuel generalizing frames released ready with
  | zero => exact ⟨ready, frames, rfl⟩
  | succ fuel ih =>
    rw [OrderedCiphertextFrames.release]
    cases hlook : lookup frames.nextSeq frames.pending with
    | none => exact ⟨ready, frames, rfl⟩
    | some payload =>
      have harrived : arrivals.lookup frames.nextSeq ≠ none := by
        rw [h.pending, if_pos le_rfl] at hlook
        rw [hlook]
        exact Option.some_ne_none payload
      dsimp only [OrderedCiphertextFrames.advance]
      rw [if_pos (hbelow _ harrived)]
      exact ih (h.release hlook)

lemma exists_push (h : Settled arrivals released frames)
    (hbelow : ∀ seq, (arrivals ++ [record]).lookup seq ≠ none → seq + 1 < 2 ^ 32)
    (hnear : record.1 ≤ frames.nextSeq + maxReorderDistance)
    (hbytes : frames.nextSeq < record.1 → record.1 ∉ frames.pending →
      frames.pendingBytes + record.2.length ≤ maxPendingBytes) :
    ∃ results after, frames.push record = (.ok results, after) := by
  obtain ⟨seq, payload⟩ := record
  dsimp only at hnear hbytes
  unfold OrderedCiphertextFrames.push
  dsimp only
  by_cases hcopy : seq < frames.nextSeq ∨ seq ∈ frames.pending
  · rw [if_pos hcopy]
    exact ⟨_, _, rfl⟩
  rw [if_neg hcopy]
  obtain ⟨hnotBefore, hnotPending⟩ := not_or.mp hcopy
  by_cases hlater : seq > frames.nextSeq
  · have hfits := hbytes hlater hnotPending
    rw [if_pos hlater, if_neg (by omega), if_neg (by omega)]
    exact ⟨_, _, rfl⟩
  · obtain rfl : seq = frames.nextSeq := by omega
    have hnext : frames.nextSeq + 1 < 2 ^ 32 := by
      refine hbelow frames.nextSeq ?_
      rw [lookup_concat, h.gap, if_pos rfl, Option.none_or]
      exact Option.some_ne_none payload
    rw [if_neg hlater]
    dsimp only [OrderedCiphertextFrames.advance]
    rw [if_pos hnext]
    exact exists_release (h.expected h.gap) hbelow _

/-- The bytes of the records that have arrived while number `oldest`, before them, has not. -/
def waitingBytes (stream : List (List UInt8)) (arrived : List ℕ) (oldest : ℕ) : ℕ :=
  ∑ seq ∈ arrived.toFinset with oldest < seq, (stream.getD seq []).length

/-- No record is far ahead of the oldest that is missing, and those that wait fit. -/
def InWindow (stream : List (List UInt8)) (order : List ℕ) : Prop :=
  ∀ before seq after, order = before ++ seq :: after →
    ∀ oldest, IsLeast {number | number ∉ before} oldest →
      seq ≤ oldest + maxReorderDistance ∧
        waitingBytes stream (before ++ [seq]) oldest ≤ maxPendingBytes

/-- The records of a stream with some numbers. -/
def recordsOf (stream : List (List UInt8)) (order : List ℕ) : List (ℕ × List UInt8) :=
  order.map fun seq => (seq, stream.getD seq [])

section
variable {stream : List (List UInt8)} {order : List ℕ}

lemma lookup_recordsOf (number : ℕ) :
    (recordsOf stream order).lookup number =
      if number ∈ order then some (stream.getD number []) else none := by
  induction order with
  | nil => rfl
  | cons seq order ih =>
    rw [recordsOf, map_cons, lookup_cons]
    by_cases h : number = seq
    · rw [beq_iff_eq.mpr h, h, if_pos mem_cons_self]
    · rw [beq_eq_false_iff_ne.mpr h]
      show (recordsOf stream order).lookup number = _
      simp only [ih, mem_cons, h, false_or]

lemma lookup_recordsOf_ne_none {number : ℕ} :
    (recordsOf stream order).lookup number ≠ none ↔ number ∈ order := by
  rw [lookup_recordsOf]
  split_ifs with h <;> simp [h]

section
variable (h : Settled (recordsOf stream order) released frames)
include h

lemma Settled.isLeast :
    IsLeast {number | number ∉ order} frames.nextSeq := by
  constructor
  · intro hmem
    exact lookup_recordsOf_ne_none.mpr hmem h.gap
  · intro number hnum
    by_contra hlt
    exact hnum (lookup_recordsOf_ne_none.mp (h.lookup_of_lt (not_le.mp hlt)))

/-- The bytes that wait are those of the numbers behind the gap. -/
lemma Settled.pendingBytes_eq :
    frames.pendingBytes = waitingBytes stream order frames.nextSeq := by
  have hkeys : frames.pending.keys.toFinset =
      order.toFinset.filter (frames.nextSeq < ·) := by
    ext number
    rw [mem_toFinset, ← AList.mem_keys, Finset.mem_filter, mem_toFinset]
    constructor
    · intro hmem
      exact ⟨lookup_recordsOf_ne_none.mp (h.mem_pending_iff.mp hmem).2, h.pending_after hmem⟩
    · rintro ⟨hmem, hlt⟩
      exact h.mem_pending_iff.mpr ⟨hlt.le, lookup_recordsOf_ne_none.mpr hmem⟩
  have hsizes : ∀ entry ∈ frames.pending.entries, entry.2.length = (stream.getD entry.1 []).length
    := by
    rintro ⟨seq, payload⟩ hentry
    have hlook : frames.pending.lookup seq = some payload :=
      mem_dlookup frames.pending.nodupKeys hentry
    rw [h.pending] at hlook
    split_ifs at hlook
    rw [lookup_recordsOf] at hlook
    split_ifs at hlook
    cases hlook
    rfl
  rw [h.bytes, Pending.bytes, waitingBytes, ← hkeys, sum_toFinset _ frames.pending.keys_nodup,
    AList.keys, List.keys, map_map]
  exact congrArg List.sum (map_congr_left hsizes)

end

lemma waitingBytes_concat {seq oldest : ℕ} (hlater : oldest < seq) (hnew : seq ∉ order) :
    waitingBytes stream (order ++ [seq]) oldest =
      waitingBytes stream order oldest + (stream.getD seq []).length := by
  have harrived : (order ++ [seq]).toFinset = insert seq order.toFinset := by
    rw [toFinset_append, Finset.union_comm]
    rfl
  have hnotMem : seq ∉ order.toFinset.filter (oldest < ·) := by
    intro hmem
    exact hnew (mem_toFinset.mp (Finset.mem_filter.mp hmem).1)
  rw [waitingBytes, harrived, Finset.filter_insert, if_pos hlater, Finset.sum_insert hnotMem,
    Nat.add_comm]
  rfl

section
variable (h : Settled (recordsOf stream order) released frames)
include h

lemma Settled.exists_push {seq : ℕ} (hmax : stream.length ≤ 2 ^ 32 - 1)
    (horder : ∀ number ∈ order ++ [seq], number < stream.length)
    (hwindow : ∀ oldest, IsLeast {number | number ∉ order} oldest →
      seq ≤ oldest + maxReorderDistance ∧
        waitingBytes stream (order ++ [seq]) oldest ≤ maxPendingBytes) :
    ∃ results after, frames.push (seq, stream.getD seq []) = (.ok results, after) ∧
      Settled (recordsOf stream (order ++ [seq])) (released ++ results) after := by
  have hrecs : recordsOf stream (order ++ [seq]) =
      recordsOf stream order ++ [(seq, stream.getD seq [])] := map_append
  obtain ⟨hnear, hfits⟩ := hwindow frames.nextSeq h.isLeast
  have hbelow : ∀ number,
      (recordsOf stream order ++ [(seq, stream.getD seq [])]).lookup number ≠ none →
      number + 1 < 2 ^ 32 := by
    intro number hnum
    rw [← hrecs] at hnum
    have hlt := horder number (lookup_recordsOf_ne_none.mp hnum)
    omega
  have hbytes : frames.nextSeq < seq → seq ∉ frames.pending →
      frames.pendingBytes + (stream.getD seq []).length ≤ maxPendingBytes := by
    intro hlater hnew
    have hnotMem : seq ∉ order := fun hmem =>
      hnew (h.mem_pending_iff.mpr ⟨hlater.le, lookup_recordsOf_ne_none.mpr hmem⟩)
    rw [h.pendingBytes_eq, ← waitingBytes_concat hlater hnotMem]
    exact hfits
  obtain ⟨results, after, hpush⟩ := NoiseRelay.exists_push h hbelow hnear hbytes
  refine ⟨results, after, hpush, ?_⟩
  rw [hrecs]
  exact push_ok h hpush

/-- When all numbers have arrived, all records have been released and none waits. -/
lemma Settled.eq_of_all (hall : ∀ seq, seq ∈ order ↔ seq < stream.length) :
    released = stream ∧ frames = { nextSeq := stream.length } := by
  have hnext : frames.nextSeq = stream.length := by
    refine h.isLeast.unique ⟨?_, ?_⟩
    · intro hmem
      exact lt_irrefl _ ((hall _).mp hmem)
    · intro number hnum
      exact not_lt.mp fun hlt => hnum ((hall number).mpr hlt)
  have hpending : frames.pending = ∅ := by
    have hkeys : frames.pending.keys = [] := by
      refine eq_nil_iff_forall_not_mem.mpr fun seq hseq => ?_
      obtain ⟨hle, hsome⟩ := h.mem_pending_iff.mp (mem_keys.mpr hseq)
      have hlt := (hall seq).mp (lookup_recordsOf_ne_none.mp hsome)
      omega
    exact ext (map_eq_nil_iff.mp hkeys)
  refine ⟨?_, ?_⟩
  · have hrel : released.map some = stream.map some := by
      rw [h.released, hnext]
      refine ext_getElem (by simp) fun i hi hi' => ?_
      have hlt : i < stream.length := by simpa using hi'
      rw [getElem_map, getElem_map, getElem_range, lookup_recordsOf,
        if_pos ((hall i).mpr hlt), getD_eq_getElem _ _ hlt]
    exact map_injective_iff.mpr (Option.some_injective _) hrel
  · have hbytes := h.bytes
    obtain ⟨nextSeq, pending, pendingBytes⟩ := frames
    dsimp only at hnext hpending hbytes
    subst hnext hpending
    rw [hbytes]
    rfl

end

/-- A record of the stream behind others, which stays within the window. -/
def Admissible (stream : List (List UInt8)) (before : List (ℕ × List UInt8))
    (record : ℕ × List UInt8) : Prop :=
  ∃ front seq, before = recordsOf stream front ∧ record = (seq, stream.getD seq []) ∧
    (∀ number ∈ front ++ [seq], number < stream.length) ∧
    ∀ oldest, IsLeast {number | number ∉ front} oldest →
      seq ≤ oldest + maxReorderDistance ∧
        waitingBytes stream (front ++ [seq]) oldest ≤ maxPendingBytes

lemma InWindow.admissible (h : InWindow stream order) (hall : ∀ seq ∈ order, seq < stream.length)
    {front back : List (ℕ × List UInt8)}
    (hrecs : recordsOf stream order = front ++ record :: back) :
    Admissible stream front record := by
  obtain ⟨before, rest, rfl, rfl, hrest⟩ := map_eq_append_iff.mp hrecs
  obtain ⟨seq, after, rfl, rfl, -⟩ := map_eq_cons_iff.mp hrest
  refine ⟨before, seq, rfl, rfl, ?_, h before seq after rfl⟩
  intro number hnum
  refine hall number ?_
  rw [append_cons]
  exact mem_append_left _ hnum

end

/-- Whatever arrives, the records released are the first ones of the numbers from zero on, and
what waits is accounted for and within the window; and a stream whose records stay within the window
is released completely, in whatever order they arrive. -/
theorem orderedCiphertext_exactly_once :
    (∀ arrivals released frames,
      pushAll OrderedCiphertextFrames.push {} arrivals = (.ok released, frames) →
      released.map some = (List.range frames.nextSeq).map (fun seq => arrivals.lookup seq) ∧
      frames.pendingBytes = frames.pending.bytes ∧ frames.pendingBytes ≤ maxPendingBytes ∧
      ∀ seq ∈ frames.pending,
        frames.nextSeq < seq ∧ seq ≤ frames.nextSeq + maxReorderDistance) ∧
    ∀ (stream : List (List UInt8)) (order : List ℕ), stream.length ≤ 2 ^ 32 - 1 →
      (∀ seq, seq ∈ order ↔ seq < stream.length) → InWindow stream order →
      pushAll OrderedCiphertextFrames.push {} (recordsOf stream order) =
        (.ok stream, { nextSeq := stream.length }) := by
  constructor
  · intro arrivals released frames hrun
    have h : Settled ([] ++ arrivals) ([] ++ released) frames :=
      pushAll_invariant (fun _ _ _ _ _ _ => push_ok) hrun settled_nil
    exact ⟨h.released, h.bytes, h.bounded, fun seq hseq => ⟨h.pending_after hseq, h.near seq hseq⟩⟩
  · intro stream order hmax hall hwindow
    have hstep : ∀ before done frames record, Settled before done frames →
        Admissible stream before record →
          ∃ results after, frames.push record = (.ok results, after) ∧
          Settled (before ++ [record]) (done ++ results) after := by
      rintro _ done frames _ hsettled ⟨front, seq, rfl, rfl, hbelow, hwindow⟩
      obtain ⟨results, after, hpush, hafter⟩ := hsettled.exists_push hmax hbelow hwindow
      refine ⟨results, after, hpush, ?_⟩
      rwa [recordsOf, map_append] at hafter
    -- records that stay within the window are all accepted
    obtain ⟨released, frames, hrun, hsettled⟩ := pushAll_total hstep
      (fun front record back => hwindow.admissible fun seq => (hall seq).mp) settled_nil
    obtain ⟨rfl, rfl⟩ := hsettled.eq_of_all hall
    exact hrun

lemma inWindow_swap : InWindow [[1], [2]] [1, 0] := by
  intro before seq after horder oldest _
  have hseq : seq ∈ [1, 0] := by
    rw [horder]
    exact mem_append_right _ mem_cons_self
  have harrived : before ++ [seq] <+: [1, 0] := ⟨after, by rw [horder, append_assoc]; rfl⟩
  refine ⟨?_, ?_⟩
  · simp only [mem_cons, not_mem_nil, or_false] at hseq
    unfold maxReorderDistance
    omega
  · calc waitingBytes [[1], [2]] (before ++ [seq]) oldest
        ≤ ∑ seq ∈ ([1, 0] : List ℕ).toFinset, ([[1], [2]].getD seq ([] : List UInt8)).length := by
          refine Finset.sum_le_sum_of_subset fun number hnum => ?_
          have hmem := mem_toFinset.mp (Finset.mem_filter.mp hnum).1
          exact mem_toFinset.mpr (harrived.subset hmem)
      _ ≤ maxPendingBytes := by decide

theorem orderedCiphertext_exactly_once_small :
    pushAll OrderedCiphertextFrames.push {} (recordsOf [[1], [2]] [1, 0]) =
        (.ok [[1], [2]], { nextSeq := 2 }) ∧
      [[1], [2]].map some = (List.range 2).map fun seq =>
        (recordsOf [[1], [2]] [1, 0]).lookup seq := by
  have hrun := orderedCiphertext_exactly_once.2 [[1], [2]] [1, 0] (by decide)
    (by intro seq; simp; omega) inWindow_swap
  exact ⟨hrun, (orderedCiphertext_exactly_once.1 _ _ _ hrun).1⟩

end

end ExperienceCodex.NoiseRelay

import Mathlib

/-!
# Messages in a byte stream

Messages are written behind each other as frames, and the stream arrives in records that are cut
without regard to the frames.  A reader takes one message off a buffer, or finds that the message
at the front is not complete.

Where the reader knows a frame from any beginning of it, the records give back the messages, and
what stays in the buffer is the beginning of the next frame.

A receiver takes items one by one and gives results, until it fails.  What each item keeps true of
the items so far, the results so far and the receiver's state is true after all of them.
-/

namespace ExperienceCodex.Framing

open List

variable {α M E σ β : Type}

/-- The results of some items, up to the first error. -/
def pushAll (push : σ → α → Except E (List β) × σ) : σ → List α → Except E (List β) × σ
  | s, [] => (.ok [], s)
  | s, item :: items =>
    match push s item with
    | (.error error, after) => (.error error, after)
    | (.ok results, after) =>
      let later := pushAll push after items
      (later.1.map (results ++ ·), later.2)

section
variable {push : σ → α → Except E (List β) × σ} {Inv : List α → List β → σ → Prop}
  {s after : σ} {items before : List α} {results done : List β}

lemma pushAll_cons_of_ok {item : α} (h : push s item = (.ok results, after)) :
    pushAll push s (item :: items) =
      ((pushAll push after items).1.map (results ++ ·), (pushAll push after items).2) := by
  rw [pushAll, h]

/-- What each item keeps holds after the items. -/
theorem pushAll_invariant
    (hstep : ∀ before done s item results after, Inv before done s →
      push s item = (.ok results, after) → Inv (before ++ [item]) (done ++ results) after)
    (h : pushAll push s items = (.ok results, after)) (hinv : Inv before done s) :
    Inv (before ++ items) (done ++ results) after := by
  induction items generalizing s before done results with
  | nil =>
    cases h
    rw [append_nil, append_nil]
    exact hinv
  | cons item items ih =>
    cases hpush : push s item with
    | mk result middle =>
      cases result with
      | error error =>
        rw [pushAll, hpush] at h
        cases h
      | ok first =>
        rw [pushAll_cons_of_ok hpush] at h
        cases hlater : pushAll push middle items with
        | mk later final =>
          rw [hlater] at h
          cases later with
          | error error => cases h
          | ok rest =>
            cases h
            have hrest := ih hlater (hstep before done s item first middle hinv hpush)
            rwa [append_assoc, append_assoc, singleton_append] at hrest

/-- Where no item fails that is admissible behind those before it, admissible items do not fail. -/
theorem pushAll_total {Admissible : List α → α → Prop}
    (hstep : ∀ before done s item, Inv before done s → Admissible before item →
      ∃ results after, push s item = (.ok results, after) ∧
        Inv (before ++ [item]) (done ++ results) after)
    (hadmissible : ∀ front item back, items = front ++ item :: back →
      Admissible (before ++ front) item)
    (hinv : Inv before done s) :
    ∃ results after, pushAll push s items = (.ok results, after) ∧
      Inv (before ++ items) (done ++ results) after := by
  induction items generalizing s before done with
  | nil =>
    refine ⟨[], s, rfl, ?_⟩
    rw [append_nil, append_nil]
    exact hinv
  | cons item items ih =>
    have hfst := hadmissible [] item items rfl
    rw [append_nil] at hfst
    obtain ⟨first, middle, hpush, hmid⟩ := hstep before done s item hinv hfst
    have hrest : ∀ front other back, items = front ++ other :: back →
        Admissible (before ++ [item] ++ front) other := by
      intro front other back hitems
      rw [append_assoc, singleton_append]
      exact hadmissible (item :: front) other back (by rw [hitems, cons_append])
    obtain ⟨rest, final, hlater, hfinal⟩ := ih hrest hmid
    refine ⟨first ++ rest, final, ?_, ?_⟩
    · rw [pushAll_cons_of_ok hpush, hlater]
      rfl
    · rwa [append_assoc, append_assoc, singleton_append] at hfinal

end

/-- What a reader finds at the front of a buffer. -/
inductive Read (α M E : Type) where
  | message (m : M) (rest : List α)
  | incomplete
  | invalid (error : E)

/-- Reads messages until none is complete. -/
def drain (read : List α → Read α M E) : ℕ → List M → List α → Except E (List M) × List α
  | 0, done, buffer => (.ok done, buffer)
  | fuel + 1, done, buffer =>
    match read buffer with
    | .message m rest => drain read fuel (done ++ [m]) rest
    | .incomplete => (.ok done, buffer)
    | .invalid error => (.error error, buffer)

/-- The messages written behind each other. -/
def stream (frame : M → List α) (messages : List M) : List α :=
  (messages.map frame).flatten

/-- The reader knows the frames of valid messages. -/
structure Reads (frame : M → List α) (Valid : M → Prop) (read : List α → Read α M E) : Prop where
  nonempty : ∀ m, frame m ≠ []
  empty : read [] = .incomplete
  whole : ∀ m rest, Valid m → read (frame m ++ rest) = .message m rest
  part : ∀ m front back, Valid m → frame m = front ++ back → back ≠ [] → read front = .incomplete

section
variable {frame : M → List α} {Valid : M → Prop} {read : List α → Read α M E}
  {messages todo : List M} {buffer unread record : List α}

section
variable (h : Reads frame Valid read)
include h

lemma length_le_length_stream :
    messages.length ≤ (stream frame messages).length := by
  induction messages with
  | nil => exact Nat.zero_le _
  | cons m messages ih =>
    have hpos := length_pos_iff.mpr (h.nonempty m)
    rw [stream] at ih
    rw [stream, map_cons, flatten_cons, length_append, length_cons]
    omega

/-- The beginning of a stream is some whole frames and the beginning of another. -/
lemma exists_split (hvalid : ∀ m ∈ messages, Valid m)
    (hstream : buffer ++ unread = stream frame messages) :
    ∃ done todo part, messages = done ++ todo ∧ buffer = stream frame done ++ part ∧
      part ++ unread = stream frame todo ∧ read part = .incomplete := by
  induction messages generalizing buffer with
  | nil =>
    obtain ⟨rfl, rfl⟩ := append_eq_nil_iff.mp hstream
    exact ⟨[], [], [], rfl, rfl, rfl, h.empty⟩
  | cons m messages ih =>
    have hm := hvalid m mem_cons_self
    have hcut : buffer ++ unread = frame m ++ stream frame messages := hstream
    -- Either the buffer holds the first frame, or it ends within it.
    have hsplit : (∃ more, buffer = frame m ++ more ∧ more ++ unread = stream frame messages) ∨
        ∃ back, back ≠ [] ∧ frame m = buffer ++ back := by
      rcases append_eq_append_iff.mp hcut with ⟨back, hback, hunread⟩ | ⟨more, hmore, hrest⟩
      · by_cases hnil : back = []
        · subst hnil
          rw [append_nil] at hback
          exact .inl ⟨[], by rw [hback, append_nil], by rw [hunread]; rfl⟩
        · exact .inr ⟨back, hnil, hback⟩
      · exact .inl ⟨more, hmore, hrest.symm⟩
    rcases hsplit with ⟨more, rfl, hmore⟩ | ⟨back, hback, hframe⟩
    · obtain ⟨done, todo, part, rfl, rfl, hpart, hread⟩ :=
        ih (forall_mem_of_forall_mem_cons hvalid) hmore
      refine ⟨m :: done, todo, part, rfl, ?_, hpart, hread⟩
      rw [← append_assoc]
      rfl
    · exact ⟨[], m :: messages, buffer, rfl, rfl, hstream, h.part m buffer back hm hframe hback⟩

/-- Whole frames are read off the buffer, and the beginning of another stays. -/
lemma drain_stream (hvalid : ∀ m ∈ messages, Valid m)
    {part : List α} (hpart : read part = .incomplete) {fuel : ℕ} (hfuel : messages.length ≤ fuel)
    (done : List M) :
    drain read fuel done (stream frame messages ++ part) = (.ok (done ++ messages), part) := by
  induction messages generalizing fuel done with
  | nil =>
    cases fuel with
    | zero => rw [drain, append_nil]; rfl
    | succ fuel =>
      show drain read (fuel + 1) done part = _
      rw [drain, hpart, append_nil]
  | cons m messages ih =>
    cases fuel with
    | zero => exact absurd hfuel (Nat.not_succ_le_zero _)
    | succ fuel =>
      have hcons : stream frame (m :: messages) ++ part =
          frame m ++ (stream frame messages ++ part) := append_assoc ..
      rw [hcons, drain, h.whole m _ (hvalid m mem_cons_self)]
      show drain read fuel (done ++ [m]) (stream frame messages ++ part) = _
      rw [ih (forall_mem_of_forall_mem_cons hvalid)
        (Nat.le_of_succ_le_succ hfuel), append_assoc, singleton_append]

/-- A record gives the messages that it completes, and leaves the beginning of the rest. -/
theorem drain_record (hvalid : ∀ m ∈ todo, Valid m)
    (hstream : buffer ++ record ++ unread = stream frame todo) :
    ∃ done todo' part, todo = done ++ todo' ∧
      drain read (buffer ++ record).length [] (buffer ++ record) = (.ok done, part) ∧
      part ++ unread = stream frame todo' ∧ read part = .incomplete := by
  obtain ⟨done, todo', part, rfl, hbuffer, hpart, hread⟩ := exists_split h hvalid hstream
  refine ⟨done, todo', part, rfl, ?_, hpart, hread⟩
  have hfuel : done.length ≤ (buffer ++ record).length := by
    have hlen : done.length ≤ (stream frame done).length := length_le_length_stream h
    rw [hbuffer, length_append]
    omega
  rw [hbuffer] at hfuel ⊢
  exact drain_stream h (fun m hm => hvalid m (mem_append_left _ hm)) hread hfuel []

end

/-- With fuel for every element, a buffer is read until no message at its front is complete. -/
lemma read_of_drain (hempty : read [] = .incomplete)
    (hconsumes : ∀ buffer m rest, read buffer = .message m rest → rest.length < buffer.length)
    {fuel : ℕ} (hfuel : buffer.length ≤ fuel) {done messages : List M} {rest : List α}
    (hdrain : drain read fuel done buffer = (.ok messages, rest)) : read rest = .incomplete := by
  induction fuel generalizing buffer done with
  | zero =>
    obtain rfl := eq_nil_of_length_eq_zero (Nat.le_zero.mp hfuel)
    cases hdrain
    exact hempty
  | succ fuel ih =>
    rw [drain] at hdrain
    cases hread : read buffer with
    | message m rest' =>
      rw [hread] at hdrain
      have hless := hconsumes buffer m rest' hread
      exact ih (by omega) hdrain
    | incomplete =>
      rw [hread] at hdrain
      cases hdrain
      exact hread
    | invalid error =>
      rw [hread] at hdrain
      cases hdrain

end

end ExperienceCodex.Framing

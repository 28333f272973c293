import ExperienceCodex.Fallible
import ExperienceCodex.Framing

/-!
# Messages in relay records

A message is sent behind a prefix of four bytes that says how long it is, and the byte stream is cut
into records of bounded size.  The decoder puts the messages together again; whatever a peer sends,
it keeps less than one longest message with its prefix.
-/

namespace ExperienceCodex.NoiseRelay

open List Framing

def lengthPrefixBytes : ℕ := 4

def maxNoiseJsonrpcMessageLen : ℕ := 64 * 1024 * 1024

def noiseRecordPlaintextLen : ℕ := 60 * 1024

inductive ExecServerError where
  | protocol (message : String)
deriving DecidableEq, Repr

/-- The bytes of a `u32`, the highest first. -/
def toBeBytes (n : ℕ) : List UInt8 :=
  [UInt8.ofNat (n / 2 ^ 24), UInt8.ofNat (n / 2 ^ 16), UInt8.ofNat (n / 2 ^ 8), UInt8.ofNat n]

def fromBeBytes (a b c d : UInt8) : ℕ :=
  a.toNat * 2 ^ 24 + b.toNat * 2 ^ 16 + c.toNat * 2 ^ 8 + d.toNat

def messageLengthPrefix (messageLen : ℕ) : Except ExecServerError (List UInt8) :=
  if messageLen = 0 ∨ messageLen > maxNoiseJsonrpcMessageLen then
    .error (.protocol "Noise relay JSON-RPC message exceeds maximum length")
  else .ok (toBeBytes messageLen)

def frameMessage (message : List UInt8) : Except ExecServerError (List UInt8) := do
  let front ← messageLengthPrefix message.length
  return front ++ message

/-- One turn of the decoder's loop: the message at the front of the buffer. -/
def readMessage : List UInt8 → Read UInt8 (List UInt8) ExecServerError
  | a :: b :: c :: d :: payload =>
    let messageLen := fromBeBytes a b c d
    if messageLen = 0 ∨ messageLen > maxNoiseJsonrpcMessageLen then
      .invalid (.protocol "Noise relay JSON-RPC message has invalid length")
    else if lengthPrefixBytes + payload.length < lengthPrefixBytes + messageLen then .incomplete
    else .message (payload.take messageLen) (payload.drop messageLen)
  | _ => .incomplete

structure MessageDecoder where
  buffered : List UInt8 := []
deriving DecidableEq, Repr

namespace MessageDecoder

/-- Appends a record and gives the messages that are complete with it. -/
def push (self : MessageDecoder) (plaintextRecord : List UInt8) :
    Except ExecServerError (List (List UInt8)) × MessageDecoder :=
  if plaintextRecord.length > noiseRecordPlaintextLen then
    (.error (.protocol "Noise relay plaintext record exceeds maximum length"), self)
  else
    let buffered := self.buffered ++ plaintextRecord
    match drain readMessage buffered.length [] buffered with
    | (.error error, rest) => (.error error, ⟨rest⟩)
    | (.ok messages, rest) =>
      if rest.length > lengthPrefixBytes + maxNoiseJsonrpcMessageLen then
        (.error (.protocol "Noise relay JSON-RPC reassembly buffer exceeds maximum length"), ⟨rest⟩)
      else (.ok messages, ⟨rest⟩)

end MessageDecoder

/-- A message that is accepted for sending. -/
def Sendable (message : List UInt8) : Prop :=
  0 < message.length ∧ message.length ≤ maxNoiseJsonrpcMessageLen

/-- The frame of a message. -/
def frame (message : List UInt8) : List UInt8 :=
  toBeBytes message.length ++ message

section
variable {message front back : List UInt8}

lemma frameMessage_eq_ok_iff {framed : List UInt8} :
    frameMessage message = .ok framed ↔ Sendable message ∧ framed = frame message := by
  unfold frameMessage messageLengthPrefix Sendable
  split_ifs with h
  · constructor
    · intro hframed
      cases hframed
    · rintro ⟨hsendable, -⟩
      omega
  · constructor
    · intro hframed
      cases hframed
      exact ⟨by omega, rfl⟩
    · rintro ⟨-, rfl⟩
      rfl

lemma fromBeBytes_of_lt {n : ℕ} (h : n < 2 ^ 32) :
    fromBeBytes (UInt8.ofNat (n / 2 ^ 24)) (UInt8.ofNat (n / 2 ^ 16)) (UInt8.ofNat (n / 2 ^ 8))
      (UInt8.ofNat n) = n := by
  simp only [fromBeBytes, UInt8.toNat_ofNat']
  omega

lemma Sendable.lt (h : Sendable message) : message.length < 2 ^ 32 :=
  lt_of_le_of_lt h.2 (by decide)

lemma readMessage_sent {pay : List UInt8} (h : Sendable message) :
    readMessage (toBeBytes message.length ++ pay) =
      if pay.length < message.length then .incomplete
      else .message (pay.take message.length) (pay.drop message.length) := by
  have hvalid : ¬ (message.length = 0 ∨ message.length > maxNoiseJsonrpcMessageLen) := by
    have := h.1
    have := h.2
    omega
  show readMessage (_ :: _ :: _ :: _ :: pay) = _
  simp only [readMessage, fromBeBytes_of_lt h.lt, if_neg hvalid, Nat.add_lt_add_iff_left]

lemma readMessage_of_length_lt (h : front.length < lengthPrefixBytes) :
    readMessage front = .incomplete := by
  match front, h with
  | [], _ | [_], _ | [_, _], _ | [_, _, _], _ => rfl

/-- The decoder knows the frames of messages that are sent. -/
lemma reads_frame : Reads frame Sendable readMessage where
  nonempty message := by simp [frame, toBeBytes]
  empty := rfl
  whole message rest hmessage := by
    rw [frame, append_assoc, readMessage_sent hmessage, if_neg, take_left, drop_left]
    rw [length_append]
    omega
  part message front back hmessage hframe hback := by
    by_cases hshort : front.length < lengthPrefixBytes
    · exact readMessage_of_length_lt hshort
    · -- The prefix is whole, and the payload is not.
      have hlen : (toBeBytes message.length).length = lengthPrefixBytes := rfl
      obtain ⟨pay, hfront, hmessage'⟩ : ∃ pay, front = toBeBytes message.length ++ pay ∧
          message = pay ++ back := by
        rcases append_eq_append_iff.mp hframe with ⟨pay, hpayload⟩ | ⟨more, hmore, hback'⟩
        · exact ⟨pay, hpayload⟩
        · have hnil : more = [] := by
            have hsum := congrArg length hmore
            rw [length_append, hlen] at hsum
            exact eq_nil_of_length_eq_zero (by omega)
          subst hnil
          rw [append_nil] at hmore
          exact ⟨[], by rw [hmore, append_nil], hback'.symm⟩
      have hpos := length_pos_iff.mpr hback
      rw [hfront, readMessage_sent hmessage, if_pos]
      rw [hmessage', length_append]
      omega

lemma readMessage_consumes {buffer message rest : List UInt8}
    (h : readMessage buffer = .message message rest) : rest.length < buffer.length := by
  match buffer with
  | a :: b :: c :: d :: pay =>
    simp only [readMessage] at h
    split_ifs at h
    cases h
    simp only [length_drop, length_cons]
    omega
  | [] | [_] | [_, _] | [_, _, _] => cases h

/-- What is not a complete message is shorter than the longest message with its prefix. -/
lemma length_lt_of_incomplete {buffer : List UInt8} (h : readMessage buffer = .incomplete) :
    buffer.length < lengthPrefixBytes + maxNoiseJsonrpcMessageLen := by
  match buffer with
  | a :: b :: c :: d :: pay =>
    simp only [readMessage] at h
    split_ifs at h with hinvalid hshort
    simp only [length_cons, lengthPrefixBytes] at hshort ⊢
    omega
  | [] | [_] | [_, _] | [_, _, _] => simp [lengthPrefixBytes, maxNoiseJsonrpcMessageLen]

/-- A record gives the messages that it completes. -/
lemma push_record {decoder : MessageDecoder} {record unread : List UInt8}
    {todo : List (List UInt8)} (hlen : record.length ≤ noiseRecordPlaintextLen)
    (hsendable : ∀ message ∈ todo, Sendable message)
    (hstream : decoder.buffered ++ (record ++ unread) = stream frame todo) :
    ∃ done todo' part, todo = done ++ todo' ∧ decoder.push record = (.ok done, ⟨part⟩) ∧
      part ++ unread = stream frame todo' ∧ readMessage part = .incomplete := by
  rw [← append_assoc] at hstream
  obtain ⟨done, todo', part, rfl, hdrain, hafter, hread⟩ :=
    drain_record reads_frame hsendable hstream
  refine ⟨done, todo', part, rfl, ?_, hafter, hread⟩
  simp only [MessageDecoder.push, if_neg (not_lt.mpr hlen), hdrain,
    if_neg (not_lt.mpr (length_lt_of_incomplete hread).le)]

lemma pushAll_records {decoder : MessageDecoder} {records todo : List (List UInt8)}
    (hrecs : ∀ record ∈ records, record.length ≤ noiseRecordPlaintextLen)
    (hsendable : ∀ message ∈ todo, Sendable message)
    (hstream : decoder.buffered ++ records.flatten = stream frame todo)
    (hpart : readMessage decoder.buffered = .incomplete) :
    pushAll MessageDecoder.push decoder records = (.ok todo, {}) := by
  induction records generalizing decoder todo with
  | nil =>
    rw [flatten_nil, append_nil] at hstream
    cases todo with
    | nil =>
      obtain ⟨buffered⟩ := decoder
      obtain rfl : buffered = [] := hstream
      rfl
    | cons message todo =>
      have hwhole := reads_frame.whole message (stream frame todo)
        (hsendable message mem_cons_self)
      have hbuffered : decoder.buffered = frame message ++ stream frame todo := hstream
      rw [hbuffered, hwhole] at hpart
      cases hpart
  | cons record records ih =>
    obtain ⟨done, todo', part, rfl, hpush, hafter, hread⟩ :=
      push_record (hrecs record mem_cons_self) hsendable hstream
    have hlater := ih (forall_mem_of_forall_mem_cons hrecs)
      (fun message hmessage => hsendable message (mem_append_right _ hmessage)) hafter hread
    rw [pushAll_cons_of_ok hpush, hlater]
    rfl

lemma stream_of_framed {messages frames : List (List UInt8)}
    (h : messages.mapM frameMessage = .ok frames) :
    frames.flatten = stream frame messages ∧ ∀ message ∈ messages, Sendable message := by
  induction messages generalizing frames with
  | nil =>
    cases h
    exact ⟨rfl, forall_mem_nil _⟩
  | cons message messages ih =>
    rw [mapM_cons] at h
    obtain ⟨framed, hframed, h⟩ := bind_eq_ok_iff.mp h
    obtain ⟨rest, hrest, h⟩ := bind_eq_ok_iff.mp h
    cases h
    obtain ⟨hsendable, rfl⟩ := frameMessage_eq_ok_iff.mp hframed
    obtain ⟨hflatten, hothers⟩ := ih hrest
    refine ⟨?_, ?_⟩
    · rw [flatten_cons, hflatten]
      rfl
    · intro other hother
      rcases mem_cons.mp hother with rfl | hmem
      · exact hsendable
      · exact hothers other hmem

/-- However the frames are cut into records, the decoder gives back the messages and keeps
nothing; and whatever records arrive, what it keeps is bounded. -/
theorem decoder_inverts_framing :
    (∀ messages frames records : List (List UInt8), messages.mapM frameMessage = .ok frames →
      records.flatten = frames.flatten →
      (∀ record ∈ records, record.length ≤ noiseRecordPlaintextLen) →
      pushAll MessageDecoder.push {} records = (.ok messages, {})) ∧
    ∀ (decoder after : MessageDecoder) record messages,
      decoder.push record = (.ok messages, after) →
      after.buffered.length < lengthPrefixBytes + maxNoiseJsonrpcMessageLen := by
  constructor
  · intro messages frames records hframes hcut hrecords
    obtain ⟨hstream, hsendable⟩ := stream_of_framed hframes
    exact pushAll_records hrecords hsendable (hcut.trans hstream) rfl
  · intro decoder after record messages h
    unfold MessageDecoder.push at h
    by_cases hlong : record.length > noiseRecordPlaintextLen
    · rw [if_pos hlong] at h
      cases h
    rw [if_neg hlong] at h
    dsimp only at h
    cases hdrain : drain readMessage (decoder.buffered ++ record).length []
        (decoder.buffered ++ record) with
    | mk r rest =>
      cases r with
      | error error =>
        rw [hdrain] at h
        cases h
      | ok messages' =>
        rw [hdrain] at h
        dsimp only at h
        split_ifs at h <;> cases h
        exact length_lt_of_incomplete (read_of_drain rfl (fun _ _ _ => readMessage_consumes) le_rfl
          hdrain)

theorem decoder_inverts_framing_small :
    pushAll MessageDecoder.push {} [[0, 0], [0, 2, 7], [8, 0, 0, 0, 1, 9]] =
      (.ok [[7, 8], [9]], {}) ∧
      ([0, 0, 0, 3, 1] : List UInt8).length < lengthPrefixBytes + maxNoiseJsonrpcMessageLen :=
  ⟨decoder_inverts_framing.1 [[7, 8], [9]] [[0, 0, 0, 2, 7, 8], [0, 0, 0, 1, 9]] _
      (by decide +kernel) (by decide) (by decide),
    decoder_inverts_framing.2 {} ⟨[0, 0, 0, 3, 1]⟩ [0, 0, 0, 3, 1] [] (by decide +kernel)⟩

end

end ExperienceCodex.NoiseRelay

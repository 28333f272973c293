import ExperienceCodex.OrderedCiphertext
import ExperienceCodex.Programs

/-!
# The stream that the handler reads

A relay that is not trusted carries the records.  The receiver orders them, opens each under the
number that the cipher counts, puts the messages together and queues them for the handler; an error
closes the stream.  While the cipher opens under each number only what the peer sealed under it, the
queue holds the first messages of the peer, however they were cut into records.
-/

namespace ExperienceCodex.NoiseRelay

open List Framing Programs

/-- One virtual stream after the handshake. -/
structure NoiseVirtualStream (Incoming : Type) where
  /-- What has been put into the queue of the handler. -/
  incoming : List Incoming := []
  receiveNonce : ℕ := 0
  inboundCiphertexts : OrderedCiphertextFrames := {}
  inboundDecoder : MessageDecoder := {}

section
variable {Incoming : Type} (decrypt : ℕ → List UInt8 → Except String (List UInt8))
  (admits : ℕ → Bool) (decode : List UInt8 → Except ExecServerError Incoming)

/-- Decodes a message and puts it into the queue, if that has room. -/
def deliver (message : List UInt8) :
    EStateM ExecServerError (NoiseVirtualStream Incoming) Unit := do
  let item ← orFail (decode message)
  let self ← get
  if admits self.incoming.length then set { self with incoming := self.incoming ++ [item] }
  else throw (.protocol "Noise virtual stream inbound queue is full or closed")

/-- Opens a record and delivers the messages that are complete with it. -/
def receiveRecord (ciphertext : List UInt8) :
    EStateM ExecServerError (NoiseVirtualStream Incoming) Unit := do
  let self ← get
  let plaintext ← orFail ((decrypt self.receiveNonce ciphertext).mapError fun error =>
    .protocol ("Noise relay decryption failed: " ++ error))
  let pushed := self.inboundDecoder.push plaintext
  set { self with receiveNonce := self.receiveNonce + 1, inboundDecoder := pushed.2 }
  let messages ← orFail pushed.1
  messages.forM (deliver admits decode)

def receiveData (data : ℕ × List UInt8) :
    EStateM ExecServerError (NoiseVirtualStream Incoming) Unit := do
  let self ← get
  let pushed := self.inboundCiphertexts.push data
  set { self with inboundCiphertexts := pushed.2 }
  let ciphertexts ← orFail pushed.1
  ciphertexts.forM (receiveRecord decrypt admits decode)

/-- The stream after the frames that arrive for it; an error closes it. -/
def received (arrivals : List (ℕ × List UInt8)) : NoiseVirtualStream Incoming :=
  finalState (arrivals.forM (receiveData decrypt admits decode)) {}

variable (payloads todo records : List (List UInt8)) (unsent : List UInt8)
  (self : NoiseVirtualStream Incoming)

/-- The messages in the queue are those before the ones to come. -/
def Delivered : Prop :=
  ∃ done, payloads = done ++ todo ∧ done.map decode = self.incoming.map .ok

/-- Between two records, the buffer and the records to come are the messages to come. -/
def Receiving : Prop :=
  ∃ todo, Delivered decode payloads todo self ∧ self.inboundDecoder.buffered ++
    ((records.drop self.receiveNonce).flatten ++ unsent) = stream frame todo

variable {decrypt admits decode payloads todo records unsent self}

lemma deliver_ends {message : List UInt8} (h : Delivered decode payloads (message :: todo) self) :
    Ends (deliver admits decode message) self
      (fun _ after => Delivered decode payloads todo after ∧
        after = { self with incoming := after.incoming })
      fun _ after => ∃ todo, Delivered decode payloads todo after := by
  obtain ⟨done, rfl, hdone⟩ := h
  refine ends_bind (ends_orFail (fun item hitem => ends_get_bind ?_) fun _ _ =>
    ⟨_, done, rfl, hdone⟩)
  split_ifs
  · refine ends_set ⟨⟨done ++ [message], ?_, ?_⟩, rfl⟩
    · rw [append_assoc]
      rfl
    · rw [map_append, map_append, hdone, map_singleton, map_singleton, hitem]
  · exact ends_throw ⟨_, done, rfl, hdone⟩

section
variable (hsendable : ∀ payload ∈ payloads, Sendable payload)
  (hopens : ∀ nonce ciphertext plaintext, decrypt nonce ciphertext = .ok plaintext →
    records[nonce]? = some plaintext)
include hsendable hopens

lemma receiveRecord_ends (ciphertext : List UInt8)
    (h : Receiving decode payloads records unsent self) :
    Ends (receiveRecord decrypt admits decode ciphertext) self
      (fun _ => Receiving decode payloads records unsent)
      fun _ after => ∃ todo, Delivered decode payloads todo after := by
  obtain ⟨todo, hdelivered, hstream⟩ := h
  refine ends_get_bind (ends_bind (ends_orFail (fun record hrecord => ?_) fun _ _ =>
    ⟨todo, hdelivered⟩))
  have hopen := hopens _ _ _ (mapError_eq_ok_iff.mp hrecord)
  obtain ⟨hlt, rfl⟩ := List.getElem?_eq_some_iff.mp hopen
  rw [drop_eq_getElem_cons hlt, flatten_cons, append_assoc] at hstream
  have htodo : ∀ message ∈ todo, Sendable message := by
    obtain ⟨done, rfl, -⟩ := hdelivered
    exact fun message hmem => hsendable message (mem_append_right _ hmem)
  refine ends_bind (ends_set (ends_bind (ends_orFail (fun messages hmessages => ?_) fun _ _ =>
    ⟨todo, hdelivered⟩)))
  have hlen : (records[self.receiveNonce]).length ≤ noiseRecordPlaintextLen := by
    by_contra hlong
    rw [MessageDecoder.push, if_pos (not_le.mp hlong)] at hmessages
    cases hmessages
  obtain ⟨done, todo, part, rfl, hpush, hafter, -⟩ := push_record hlen htodo hstream
  rw [hpush] at hmessages ⊢
  cases hmessages
  -- The messages of the record are delivered one by one; nothing else changes meanwhile.
  refine ends_forM (fun messages after =>
    Delivered decode payloads (messages ++ todo) after ∧ after = { self with
      incoming := after.incoming
      receiveNonce := self.receiveNonce + 1
      inboundDecoder := ⟨part⟩ }) ?_ ⟨?_, rfl⟩ ?_
  · rintro message messages middle ⟨hmid, hsame⟩
    refine (deliver_ends hmid).mono ?_ fun _ _ h => h
    rintro - after ⟨hdelivered, hafter⟩
    exact ⟨hdelivered, by rw [hafter, hsame]⟩
  · exact hdelivered
  · rintro after ⟨hdelivered, hsame⟩
    exact ⟨todo, hdelivered, by rw [hsame]; exact hafter⟩

/-- Whatever arrives, the messages in the queue are the first of those that the peer sent, in their
order and once each, if the cipher opens under a number only what the peer sealed under it. -/
theorem delivered_in_order (hcut : records.flatten <+: stream frame payloads)
    (arrivals : List (ℕ × List UInt8)) :
    (received decrypt admits decode arrivals).incoming.map .ok <+: payloads.map decode := by
  obtain ⟨unsent, hcut⟩ := hcut
  have hstart : Receiving decode payloads records unsent {} := ⟨payloads, ⟨[], rfl, rfl⟩, hcut⟩
  have hrun : ∃ todo, Delivered decode payloads todo (received decrypt admits decode arrivals) := by
    refine Ends.final (ends_forM (fun _ => Receiving decode payloads records unsent) ?_ hstart
      fun _ h => h.imp fun todo h => h.1)
    intro data _ self h
    refine ends_get_bind (ends_bind (ends_set (ends_bind (ends_orFail (fun _ _ => ?_) fun _ _ =>
      h.imp fun todo h => h.1))))
    exact ends_forM (fun _ => Receiving decode payloads records unsent)
      (fun ciphertext _ _ => receiveRecord_ends hsendable hopens ciphertext) h fun _ h => h
  obtain ⟨todo, done, rfl, hdone⟩ := hrun
  rw [← hdone, map_append]
  exact prefix_append ..

end

theorem delivered_in_order_swapped :
    let records : List (List UInt8) := [[0, 0, 0, 1, 7, 0], [0, 0, 1, 8]]
    let cipher nonce ciphertext : Except String (List UInt8) :=
      if records[nonce]? = some ciphertext then .ok ciphertext else .error "tag mismatch"
    let decode : List UInt8 → Except ExecServerError (List UInt8) := .ok
    (received cipher (fun _ => true) decode [(1, [0, 0, 1, 8]), (2, [9]),
      (0, [0, 0, 0, 1, 7, 0])]).incoming.map .ok <+: [[7], [8]].map decode := by
  refine @delivered_in_order _ _ _ _ _ [[0, 0, 0, 1, 7, 0], [0, 0, 1, 8]] ?_ ?_ (by decide) _
  · unfold Sendable
    decide
  · intro nonce ciphertext plaintext h
    split_ifs at h with hrecord
    cases h
    exact hrecord

end

end ExperienceCodex.NoiseRelay

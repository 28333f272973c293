import Mathlib

/-!
# Output with a head and a tail

The output of a command is kept up to a number of bytes: half of them hold how it begins, the other
half how it ends, and what lies between is only counted.  A buffer is the window of the stream that
was pushed, however the stream was cut into chunks; and windows of two streams combine to the
window of one stream behind the other.
-/

namespace ExperienceCodex.UnifiedExec

open List

/-- The largest `usize`, on a host with words of 64 bits. -/
def usizeMax : ℕ := 2 ^ 64 - 1

def saturatingAdd (a b : ℕ) : ℕ :=
  min (a + b) usizeMax

structure HeadTailBuffer where
  head : List UInt8 := []
  tail : List UInt8 := []
  omittedBytes : ℕ := 0
deriving DecidableEq, Repr

section
variable (maxBytes : ℕ)

def headBudget : ℕ := maxBytes / 2

def tailBudget : ℕ := maxBytes - headBudget maxBytes

namespace HeadTailBuffer

def retainedBytes (self : HeadTailBuffer) : ℕ :=
  saturatingAdd self.head.length self.tail.length

def totalBytes (self : HeadTailBuffer) : ℕ :=
  saturatingAdd self.retainedBytes self.omittedBytes

/-- Fills the head, and gives the bytes that did not fit. -/
def fillHead (self : HeadTailBuffer) (chunk : List UInt8) : HeadTailBuffer × List UInt8 :=
  let remainingHead := headBudget maxBytes - self.head.length
  -- A shorter chunk fits entirely in the head.
  let split :=
    if remainingHead ≤ chunk.length then (chunk.take remainingHead, chunk.drop remainingHead)
    else (chunk, [])
  ({ self with head := self.head ++ split.1 }, split.2)

/-- Appends bytes that do not belong in the head, and keeps the newest. -/
def pushTail (self : HeadTailBuffer) (chunk : List UInt8) : HeadTailBuffer :=
  let remainingTail := tailBudget maxBytes - self.tail.length
  let excessTail := chunk.length - remainingTail
  let omittedBytes := saturatingAdd self.omittedBytes excessTail
  -- Old bytes of the tail are dropped first, then bytes of the chunk.
  if excessTail < self.tail.length then
    { self with tail := self.tail.drop excessTail ++ chunk, omittedBytes }
  else
    { self with tail := chunk.drop (excessTail - self.tail.length), omittedBytes }

def pushChunk (self : HeadTailBuffer) (chunk : List UInt8) : HeadTailBuffer :=
  let filled := self.fillHead maxBytes chunk
  filled.1.pushTail maxBytes filled.2

/-- Keeps a head that is there, and takes over the head of a later buffer otherwise. -/
def takeHead (self : HeadTailBuffer) (head : List UInt8) : HeadTailBuffer × List UInt8 :=
  if self.head.isEmpty then ({ self with head }, []) else self.fillHead maxBytes head

/-- Appends what the head left over and the tail of a later buffer.  That tail lies in a ring as two
slices, of which the first ends at `wrap`. -/
def takeTail (wrap : ℕ) (self : HeadTailBuffer) (overflow tail : List UInt8) : HeadTailBuffer :=
  -- A full tail displaces the old tail and what is left of the head.
  if tail.length = tailBudget maxBytes then
    { self with
      tail
      omittedBytes :=
        saturatingAdd (saturatingAdd self.omittedBytes self.tail.length) overflow.length }
  else
    let self := self.pushTail maxBytes overflow
    if self.tail.isEmpty then { self with tail }
    else (self.pushTail maxBytes (tail.take wrap)).pushTail maxBytes (tail.drop wrap)

/-- Appends a later buffer. -/
def pushBuffer (wrap : ℕ) (self buffer : HeadTailBuffer) : HeadTailBuffer :=
  let self := { self with omittedBytes := saturatingAdd self.omittedBytes buffer.omittedBytes }
  let filled := self.takeHead maxBytes buffer.head
  filled.1.takeTail maxBytes wrap filled.2 buffer.tail

/-- The buffer after some chunks. -/
def ofChunks (chunks : List (List UInt8)) : HeadTailBuffer :=
  chunks.foldl (pushChunk maxBytes) {}

end HeadTailBuffer

/-- What a buffer is to hold of a stream. -/
def window (stream : List UInt8) : HeadTailBuffer where
  head := stream.take (headBudget maxBytes)
  tail := (stream.drop (headBudget maxBytes)).rtake (tailBudget maxBytes)
  omittedBytes := (stream.drop (headBudget maxBytes)).length - tailBudget maxBytes

variable {maxBytes}
variable {buffer : HeadTailBuffer} {stream later chunk : List UInt8}

lemma saturatingAdd_of_le {a b : ℕ} (h : a + b ≤ usizeMax) : saturatingAdd a b = a + b :=
  min_eq_left h

lemma length_rtake (n : ℕ) : (stream.rtake n).length = min n stream.length := by
  rw [rtake_eq_reverse_take_reverse, length_reverse, length_take, length_reverse]

lemma rtake_append_of_le {n : ℕ} (h : n ≤ later.length) :
    (stream ++ later).rtake n = later.rtake n := by
  rw [rtake, rtake, length_append, drop_append, drop_eq_nil_of_le (by omega), nil_append]
  congr 1
  omega

lemma fillHead_eq :
    buffer.fillHead maxBytes chunk =
      ({ buffer with
          head := buffer.head ++ chunk.take (headBudget maxBytes - buffer.head.length) },
        chunk.drop (headBudget maxBytes - buffer.head.length)) := by
  unfold HeadTailBuffer.fillHead
  by_cases h : headBudget maxBytes - buffer.head.length ≤ chunk.length
  · simp only [if_pos h]
  · simp only [if_neg h]
    rw [take_of_length_le (by omega), drop_eq_nil_of_le (by omega)]

lemma pushTail_eq (htail : buffer.tail = stream.rtake (tailBudget maxBytes))
    (homitted : buffer.omittedBytes = stream.length - tailBudget maxBytes)
    (hmax : (stream ++ chunk).length ≤ usizeMax) :
    buffer.pushTail maxBytes chunk =
      { head := buffer.head
        tail := (stream ++ chunk).rtake (tailBudget maxBytes)
        omittedBytes := (stream ++ chunk).length - tailBudget maxBytes } := by
  have hlen : buffer.tail.length = min (tailBudget maxBytes) stream.length := by
    rw [htail, length_rtake]
  rw [length_append] at hmax ⊢
  set budget := tailBudget maxBytes
  set excess := chunk.length - (budget - buffer.tail.length) with hexcess
  have htotal : saturatingAdd buffer.omittedBytes excess =
      stream.length + chunk.length - budget := by
    rw [saturatingAdd_of_le (by omega)]
    omega
  have hkept : (buffer.tail ++ chunk).drop excess = (stream ++ chunk).rtake budget := by
    have hdrop : buffer.tail ++ chunk = (stream ++ chunk).drop (stream.length - budget) := by
      rw [htail, rtake, drop_append_of_le_length (by omega)]
    rw [hdrop, drop_drop, rtake, length_append]
    congr 1
    omega
  rw [← hkept, ← htotal, drop_append]
  unfold HeadTailBuffer.pushTail
  by_cases h : excess < buffer.tail.length
  · rw [Nat.sub_eq_zero_of_le h.le, drop_zero]
    exact if_pos h
  · rw [drop_eq_nil_of_le (not_lt.mp h), nil_append]
    exact if_neg h

/-- A chunk takes the window of a stream to the window of the longer stream. -/
lemma pushChunk_window (hmax : (stream ++ chunk).length ≤ usizeMax) :
    (window maxBytes stream).pushChunk maxBytes chunk = window maxBytes (stream ++ chunk) := by
  have hhead : headBudget maxBytes - (window maxBytes stream).head.length =
      headBudget maxBytes - stream.length := by
    rw [window, length_take]
    omega
  have hrest : stream.drop (headBudget maxBytes) ++
      chunk.drop (headBudget maxBytes - stream.length) =
      (stream ++ chunk).drop (headBudget maxBytes) := drop_append.symm
  rw [HeadTailBuffer.pushChunk, fillHead_eq, hhead, pushTail_eq rfl rfl, hrest, window, window,
    take_append]
  rw [hrest]
  exact (length_drop ▸ Nat.sub_le _ _ : _).trans hmax

lemma foldl_pushChunk_window {chunks : List (List UInt8)}
    (hmax : (stream ++ chunks.flatten).length ≤ usizeMax) :
    chunks.foldl (HeadTailBuffer.pushChunk maxBytes) (window maxBytes stream) =
      window maxBytes (stream ++ chunks.flatten) := by
  induction chunks generalizing stream with
  | nil => rw [flatten_nil, append_nil, foldl_nil]
  | cons chunk chunks ih =>
    rw [flatten_cons, ← append_assoc] at hmax ⊢
    rw [foldl_cons, pushChunk_window, ih hmax]
    rw [length_append] at hmax
    omega

lemma window_nil : window maxBytes [] = {} := by
  simp [window, rtake]

lemma ofChunks_eq_window {chunks : List (List UInt8)} (hmax : chunks.flatten.length ≤ usizeMax) :
    HeadTailBuffer.ofChunks maxBytes chunks = window maxBytes chunks.flatten := by
  have hempty : ({} : HeadTailBuffer) = window maxBytes [] := window_nil.symm
  rw [HeadTailBuffer.ofChunks, hempty, foldl_pushChunk_window hmax, nil_append]

/-- What lies behind the head in two streams: the rest of the first, what the first leaves over of
the head of the second, and the rest of the second. -/
lemma drop_append_eq (n : ℕ) :
    (stream ++ later).drop n =
      stream.drop n ++ (later.take n).drop (n - stream.length) ++ later.drop n := by
  have hlater : later.drop (n - stream.length) =
      (later.take n).drop (n - stream.length) ++ later.drop n := by
    have hsplit := take_append_drop (n - (n - stream.length)) (later.drop (n - stream.length))
    rw [drop_drop, Nat.add_sub_cancel' (Nat.sub_le ..)] at hsplit
    rw [drop_take, hsplit]
  rw [drop_append, hlater, append_assoc]

/-- An empty head would be filled by the whole of a head. -/
lemma takeHead_eq_fillHead (hchunk : chunk.length ≤ headBudget maxBytes) :
    buffer.takeHead maxBytes chunk = buffer.fillHead maxBytes chunk := by
  unfold HeadTailBuffer.takeHead
  by_cases hempty : buffer.head.isEmpty = true
  · rw [if_pos hempty, fillHead_eq, isEmpty_iff.mp hempty, length_nil, Nat.sub_zero,
      take_of_length_le hchunk, drop_eq_nil_of_le hchunk, nil_append]
  · rw [if_neg hempty]

lemma takeTail_eq (wrap : ℕ) {more : List UInt8}
    (htail : buffer.tail = stream.rtake (tailBudget maxBytes))
    (homitted : buffer.omittedBytes =
      stream.length - tailBudget maxBytes + (later.length - tailBudget maxBytes))
    (hmax : (stream ++ more ++ later).length ≤ usizeMax) :
    buffer.takeTail maxBytes wrap more (later.rtake (tailBudget maxBytes)) =
      { head := buffer.head
        tail := (stream ++ more ++ later).rtake (tailBudget maxBytes)
        omittedBytes := (stream ++ more ++ later).length - tailBudget maxBytes } := by
  have hlen : (later.rtake (tailBudget maxBytes)).length =
      min (tailBudget maxBytes) later.length := length_rtake _
  have hlength' : buffer.tail.length = min (tailBudget maxBytes) stream.length := by
    rw [htail, length_rtake]
  unfold HeadTailBuffer.takeTail
  by_cases hfull : tailBudget maxBytes ≤ later.length
  · have htotal : saturatingAdd (saturatingAdd buffer.omittedBytes buffer.tail.length) more.length =
        (stream ++ more ++ later).length - tailBudget maxBytes := by
      rw [length_append, length_append] at hmax ⊢
      rw [saturatingAdd_of_le (a := buffer.omittedBytes) (by omega), saturatingAdd_of_le (by omega)]
      omega
    rw [if_pos (by omega), htotal, rtake_append_of_le hfull]
  · have hwhole : later.rtake (tailBudget maxBytes) = later := by
      rw [rtake, Nat.sub_eq_zero_of_le (by omega), drop_zero]
    have hmore : (stream ++ more).length ≤ usizeMax := by
      rw [length_append] at hmax
      omega
    rw [if_neg (by omega), hwhole, pushTail_eq htail (by omega) hmore]
    by_cases hempty : ((stream ++ more).rtake (tailBudget maxBytes)).isEmpty = true
    · -- Nothing lies behind the head yet.
      have hnil : stream ++ more = [] := by
        have hzero : ((stream ++ more).rtake (tailBudget maxBytes)).length =
          min (tailBudget maxBytes) (stream ++ more).length := length_rtake _
        rw [isEmpty_iff.mp hempty, length_nil] at hzero
        exact eq_nil_of_length_eq_zero (by omega)
      simp only [if_pos hempty]
      rw [hnil, nil_append, hwhole, length_nil, Nat.zero_sub,
        Nat.sub_eq_zero_of_le (not_le.mp hfull).le]
    · have hslices : stream ++ more ++ later.take wrap ++ later.drop wrap =
          stream ++ more ++ later := by
        rw [append_assoc, take_append_drop]
      have hfst : (stream ++ more ++ later.take wrap).length ≤ usizeMax := by
        rw [← hslices, length_append] at hmax
        omega
      rw [if_neg hempty, pushTail_eq rfl rfl hfst, pushTail_eq rfl rfl (by rwa [hslices]), hslices]

/-- The buffer holds the beginning and the end of a stream, and counts the bytes between them. -/
structure Holds (maxBytes : ℕ) (stream : List UInt8) (buffer : HeadTailBuffer) : Prop where
  head : buffer.head = stream.take (min stream.length (headBudget maxBytes))
  tail : buffer.tail = stream.drop
    (stream.length - min (stream.length - buffer.head.length) (tailBudget maxBytes))
  omitted : buffer.omittedBytes = stream.length - buffer.head.length - buffer.tail.length
  total : buffer.totalBytes = stream.length

lemma holds_window (hmax : stream.length ≤ usizeMax) :
    Holds maxBytes stream (window maxBytes stream) := by
  have hhead : (window maxBytes stream).head.length = min (headBudget maxBytes) stream.length :=
    length_take ..
  have htail : (window maxBytes stream).tail.length =
      min (tailBudget maxBytes) (stream.length - headBudget maxBytes) := by
    rw [← length_drop]
    exact length_rtake _
  have homitted : (window maxBytes stream).omittedBytes =
      stream.length - headBudget maxBytes - tailBudget maxBytes := by
    rw [← length_drop]
    rfl
  constructor
  · rw [min_comm, ← take_eq_take_min]
    rfl
  · rw [hhead]
    show (stream.drop (headBudget maxBytes)).rtake (tailBudget maxBytes) = _
    rw [rtake, drop_drop, length_drop]
    exact drop_eq_drop_iff.mpr (by omega)
  · omega
  · have hretained : (window maxBytes stream).retainedBytes =
        (window maxBytes stream).head.length + (window maxBytes stream).tail.length :=
      saturatingAdd_of_le (by omega)
    rw [HeadTailBuffer.totalBytes, hretained, saturatingAdd_of_le (by omega)]
    omega

/-- A buffer is the window of what was pushed to it, however that was cut, and buffers combine
like the streams they were made of. -/
theorem headTailBuffer_windows (maxBytes : ℕ) :
    (∀ chunks : List (List UInt8), chunks.flatten.length < usizeMax →
      Holds maxBytes chunks.flatten (HeadTailBuffer.ofChunks maxBytes chunks)) ∧
    ∀ wrap (chunks later both : List (List UInt8)),
      both.flatten = chunks.flatten ++ later.flatten → both.flatten.length < usizeMax →
      (HeadTailBuffer.ofChunks maxBytes chunks).pushBuffer maxBytes wrap
          (HeadTailBuffer.ofChunks maxBytes later) =
        HeadTailBuffer.ofChunks maxBytes both := by
  constructor
  · intro chunks hmax
    rw [ofChunks_eq_window hmax.le]
    exact holds_window hmax.le
  · intro wrap chunks later both hboth hmax
    have hlengths : chunks.flatten.length + later.flatten.length = both.flatten.length := by
      rw [hboth, length_append]
    rw [ofChunks_eq_window (by omega), ofChunks_eq_window (by omega), ofChunks_eq_window hmax.le,
      hboth]
    rw [hboth] at hmax
    generalize chunks.flatten = stream at hmax ⊢
    generalize later.flatten = later at hmax ⊢
    have hbehind : ((stream ++ later).drop (headBudget maxBytes)).length ≤ usizeMax := by
      rw [length_drop]
      omega
    have homitted : saturatingAdd (window maxBytes stream).omittedBytes
        (window maxBytes later).omittedBytes =
        (stream.drop (headBudget maxBytes)).length - tailBudget maxBytes +
          ((later.drop (headBudget maxBytes)).length - tailBudget maxBytes) := by
      refine saturatingAdd_of_le ?_
      simp only [window, length_drop, length_append] at hmax ⊢
      omega
    have hrem : headBudget maxBytes - (stream.take (headBudget maxBytes)).length =
        headBudget maxBytes - stream.length := by
      rw [length_take]
      omega
    rw [drop_append_eq] at hbehind
    -- the head of the later stream fills the head, and the rest of it is left over
    have hhead : (window maxBytes later).head.length ≤ headBudget maxBytes := length_take_le ..
    rw [HeadTailBuffer.pushBuffer, takeHead_eq_fillHead hhead, fillHead_eq,
      window.eq_1 maxBytes (stream ++ later), drop_append_eq]
    simp only [window, hrem, take_append, take_take, min_eq_left (Nat.sub_le ..)]
    exact takeTail_eq wrap rfl homitted hbehind

theorem headTailBuffer_windows_small :
    Holds 4 [1, 2, 3, 4, 5, 6] (HeadTailBuffer.ofChunks 4 [[1], [2, 3, 4], [], [5, 6]]) ∧
      (HeadTailBuffer.ofChunks 4 [[1], [2, 3, 4]]).pushBuffer 4 1
          (HeadTailBuffer.ofChunks 4 [[5, 6, 7]]) =
        HeadTailBuffer.ofChunks 4 [[1, 2, 3, 4, 5, 6, 7]] :=
  ⟨(headTailBuffer_windows 4).1 [[1], [2, 3, 4], [], [5, 6]] (by decide),
    (headTailBuffer_windows 4).2 1 [[1], [2, 3, 4]] [[5, 6, 7]] [[1, 2, 3, 4, 5, 6, 7]] (by decide)
      (by decide)⟩

end

end ExperienceCodex.UnifiedExec

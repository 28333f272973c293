import ExperienceCodex.Lines

/-!
# Reading records from the end of a file

The scanner goes through a file chunk by chunk from its end and hands out the records between line
feeds, the last one first.  It keeps the bytes in front of the chunk that it is in, what it has not
yet looked at of this chunk, and the record under way, which is held from behind.
-/

namespace ExperienceCodex.Rollout

open List Lines

def newline : UInt8 := 10

def isAsciiWhitespace (b : UInt8) : Bool := b == 32 || b == 9 || b == 10 || b == 12 || b == 13

def readChunkSize : ℕ := 64 * 1024

structure ReverseJsonlScanner where
  unread : List UInt8
  chunk : List UInt8 := []
  recordReversed : List UInt8 := []
  maxRecordBytes : Option ℕ
  discardingOversizedRecord : Bool := false

namespace ReverseJsonlScanner

def newAt (content : List UInt8) (endByteOffset : ℕ) (maxRecordBytes : Option ℕ) :
    Option ReverseJsonlScanner :=
  if endByteOffset > content.length then none
  else some { unread := content.take endByteOffset, maxRecordBytes }

/-- The bytes of a record that is not blank. -/
def finishRecord (s : ReverseJsonlScanner) : Option (List UInt8) × ReverseJsonlScanner :=
  (if s.recordReversed.reverse.all isAsciiWhitespace then none else some s.recordReversed.reverse,
    { s with recordReversed := [] })

/-- A fragment is put to the record, unless the record gets too long. -/
def extend (s : ReverseJsonlScanner) (fragment : List UInt8) : ReverseJsonlScanner :=
  let oversized := s.maxRecordBytes.any (· < s.recordReversed.length + fragment.length)
  { s with
    recordReversed :=
      if s.discardingOversizedRecord then s.recordReversed
      else if oversized then [] else s.recordReversed ++ fragment.reverse
    discardingOversizedRecord := s.discardingOversizedRecord || oversized }

lemma length_rest_lt {chunk : List UInt8} (h : chunk ≠ []) :
    (chunk.rdropWhile (· != newline)).dropLast.length < chunk.length := by
  have hlen := (List.rdropWhile_prefix (· != newline) chunk).length_le
  have hpos := length_pos_iff.mpr h
  rw [length_dropLast]
  omega

/-- One call.  What is behind the last line feed of the chunk, or all of it, goes to the record. -/
def scanNext (s : ReverseJsonlScanner) : Option (List UInt8) × ReverseJsonlScanner :=
  if hchunk : s.chunk = [] then
    if hunread : s.unread = [] then
      if s.discardingOversizedRecord then (none, { s with discardingOversizedRecord := false })
      else s.finishRecord
    else
      let nextChunkEnd := s.unread.length - readChunkSize
      scanNext { s with
        unread := s.unread.take nextChunkEnd, chunk := s.unread.drop nextChunkEnd }
  else
    let added := s.extend (s.chunk.rtakeWhile (· != newline))
    if newline ∈ s.chunk then
      let cut := { added with chunk := (s.chunk.rdropWhile (· != newline)).dropLast }
      if added.discardingOversizedRecord then
        scanNext { cut with discardingOversizedRecord := false }
      else if cut.finishRecord.1.isSome then cut.finishRecord
      else scanNext cut.finishRecord.2
    else scanNext { added with chunk := [] }
termination_by (s.unread.length, s.chunk.length)
decreasing_by
  · have hlen := length_pos_iff.mpr hunread
    apply Prod.Lex.left
    simp [readChunkSize]
    omega
  · exact Prod.Lex.right _ (length_rest_lt hchunk)
  · exact Prod.Lex.right _ (length_rest_lt hchunk)
  · exact Prod.Lex.right _ (length_pos_iff.mpr hchunk)

/-- What is handed out for a record. -/
def kept (maxRecordBytes : Option ℕ) : List UInt8 → Option (List UInt8) :=
  Option.guard fun record =>
    !(record.all isAsciiWhitespace || maxRecordBytes.any (· < record.length))

/-- What is handed out for the record under way, when a piece in front of it begins it. -/
def current (s : ReverseJsonlScanner) (piece : List UInt8) : Option (List UInt8) :=
  if s.discardingOversizedRecord then none
  else kept s.maxRecordBytes (piece ++ s.recordReversed.reverse)

/-- What the next calls hand out. -/
def toCome (s : ReverseJsonlScanner) : List (List UInt8) :=
  let pieces := (s.unread ++ s.chunk).splitOn newline
  (s.current (pieces.getLastD [])).toList ++
    pieces.dropLast.reverse.filterMap (kept s.maxRecordBytes)

/-- The record under way is not too long, and there is none while one is dropped. -/
structure Wf (s : ReverseJsonlScanner) : Prop where
  dropped : s.discardingOversizedRecord = true → s.recordReversed = []
  fits : s.maxRecordBytes.any (· < s.recordReversed.length) = false

variable {s : ReverseJsonlScanner}

lemma toCome_eq {before : List (List UInt8)} {last : List UInt8}
    (h : (s.unread ++ s.chunk).splitOn newline = before ++ [last]) :
    s.toCome = (s.current last).toList ++ before.reverse.filterMap (kept s.maxRecordBytes) := by
  simp [toCome, h]

lemma toCome_of_nil (hrecord : s.recordReversed = [])
    (hdropping : s.discardingOversizedRecord = false) :
    s.toCome =
      ((s.unread ++ s.chunk).splitOn newline).reverse.filterMap (kept s.maxRecordBytes) := by
  obtain ⟨before, last, hsplit⟩ := exists_splitOn_eq newline (s.unread ++ s.chunk)
  rw [toCome_eq hsplit, hsplit, reverse_append, reverse_singleton, singleton_append, filterMap_cons]
  simp only [current, hdropping, hrecord, reverse_nil, append_nil]
  cases kept s.maxRecordBytes last <;> rfl

lemma wf_of_nil (h : s.recordReversed = []) : s.Wf :=
  ⟨fun _ => h, by cases hm : s.maxRecordBytes <;> simp [h]⟩

lemma Wf.extend (h : s.Wf) (fragment : List UInt8) : (s.extend fragment).Wf := by
  obtain ⟨hdropped, hfits⟩ := h
  unfold ReverseJsonlScanner.extend
  cases hdropping : s.discardingOversizedRecord with
  | true => exact wf_of_nil (by simp [hdropped hdropping])
  | false =>
    cases hlong : s.maxRecordBytes.any (· < s.recordReversed.length + fragment.length) with
    | true => exact wf_of_nil rfl
    | false => exact ⟨by simp, by simpa using hlong⟩

lemma current_extend (fragment piece : List UInt8) :
    (s.extend fragment).current piece = s.current (piece ++ fragment) := by
  unfold extend current
  cases hdropping : s.discardingOversizedRecord with
  | true => rfl
  | false =>
    cases hlong : s.maxRecordBytes.any (· < s.recordReversed.length + fragment.length) with
    | false => simp
    | true =>
      have hlonger : s.maxRecordBytes.any
          (· < (piece ++ fragment ++ s.recordReversed.reverse).length) = true := by
        cases hlimit : s.maxRecordBytes with
        | none => simp [hlimit] at hlong
        | some limit =>
          simp only [hlimit, Option.any_some, decide_eq_true_eq, length_append,
            length_reverse] at hlong ⊢
          omega
      simp only [kept, Option.guard, hlonger, Bool.or_true, Bool.not_true]
      rfl

lemma Wf.finishRecord_eq (h : s.Wf) (hdropping : s.discardingOversizedRecord = false) :
    s.finishRecord.1 = s.current [] := by
  have hfits := h.fits
  rw [← length_reverse] at hfits
  simp only [finishRecord, current, hdropping, kept, Option.guard, nil_append, hfits]
  cases s.recordReversed.reverse.all isAsciiWhitespace <;> rfl

/-- What is to come when a record ends and another begins. -/
lemma toCome_cut {next : ReverseJsonlScanner} (h : newline ∈ s.chunk)
    (hunread : next.unread = s.unread)
    (hchunk : next.chunk = (s.chunk.rdropWhile (· != newline)).dropLast)
    (hmax : next.maxRecordBytes = s.maxRecordBytes) (hrecord : next.recordReversed = [])
    (hdropping : next.discardingOversizedRecord = false) :
    s.toCome = ((s.extend (s.chunk.rtakeWhile (· != newline))).current []).toList ++
      next.toCome := by
  obtain ⟨back, front, hreverse, hback⟩ := eq_append_cons_of_mem (mem_reverse.mpr h)
  have hpos : ∀ b ∈ back, (b != newline) = true := fun b hb => by
    simpa using ne_of_mem_of_not_mem hb hback
  have hfragment : s.chunk.rtakeWhile (· != newline) = back.reverse := by
    rw [rtakeWhile, hreverse, takeWhile_append_of_pos hpos, takeWhile_cons_of_neg (by simp),
      append_nil]
  rw [rdropWhile, hreverse, dropWhile_append_of_pos hpos, dropWhile_cons_of_neg (by simp),
    reverse_cons, dropLast_concat] at hchunk
  have hsplit : (s.unread ++ s.chunk).splitOn newline =
      (s.unread ++ front.reverse).splitOn newline ++ [back.reverse] := by
    rw [← splitOn_eq_singleton (mt mem_reverse.mp hback), ← splitOn_append_cons_self,
      ← reverse_reverse s.chunk, hreverse]
    simp
  rw [toCome_eq hsplit, toCome_of_nil hrecord hdropping, hunread, hchunk, hmax, current_extend,
    hfragment, nil_append]

/-- A call hands out the first of what is to come and leaves the others. -/
lemma Wf.scanNext_spec (h : s.Wf) :
    s.scanNext.1 = s.toCome.head? ∧ s.scanNext.2.toCome = s.toCome.tail ∧ s.scanNext.2.Wf := by
  fun_induction scanNext s with
  | case1 s hchunk hunread hdropping =>
    have hdropped := h.dropped hdropping
    have hnone : s.toCome = [] := by simp [toCome, hchunk, hunread, current, hdropping]
    rw [hnone]
    refine ⟨rfl, ?_, wf_of_nil hdropped⟩
    simp [toCome, hchunk, hunread, current, hdropped, kept]
  | case2 s hchunk hunread hdropping =>
    have hclear := Bool.eq_false_iff.mpr hdropping
    have hcome : s.toCome = s.finishRecord.1.toList := by
      simp [toCome, hchunk, hunread, h.finishRecord_eq hclear]
    have hnone : s.finishRecord.2.toCome = [] := by
      simp [toCome, hchunk, hunread, current, finishRecord, kept]
    rw [hcome, hnone]
    cases s.finishRecord.1 <;> exact ⟨rfl, rfl, wf_of_nil rfl⟩
  | case3 s hchunk hunread nextChunkEnd ih =>
    have hsame : toCome { s with
        unread := s.unread.take nextChunkEnd, chunk := s.unread.drop nextChunkEnd } = s.toCome := by
      simp [toCome, hchunk, current]
    rw [← hsame]
    exact ih ⟨h.dropped, h.fits⟩
  | case4 s hchunk added hmem cut hdropping ih =>
    have hdropped := (h.extend _).dropped hdropping
    have hnone : added.current [] = none := if_pos hdropping
    rw [@toCome_cut s { cut with discardingOversizedRecord := false } hmem rfl rfl rfl hdropped rfl,
      hnone]
    exact ih (wf_of_nil hdropped)
  | case5 s hchunk added hmem cut hdropping hsome =>
    have hclear := Bool.eq_false_iff.mpr hdropping
    have hfirst : cut.finishRecord.1 = added.current [] := (h.extend _).finishRecord_eq hclear
    obtain ⟨record, hrecord⟩ := Option.isSome_iff_exists.mp hsome
    rw [@toCome_cut s cut.finishRecord.2 hmem rfl rfl rfl rfl hclear, ← hfirst, hrecord]
    exact ⟨rfl, rfl, wf_of_nil rfl⟩
  | case6 s hchunk added hmem cut hdropping hnone ih =>
    have hclear := Bool.eq_false_iff.mpr hdropping
    have hfirst : cut.finishRecord.1 = added.current [] := (h.extend _).finishRecord_eq hclear
    rw [@toCome_cut s cut.finishRecord.2 hmem rfl rfl rfl rfl hclear, ← hfirst,
      Option.not_isSome_iff_eq_none.mp hnone]
    exact ih (wf_of_nil rfl)
  | case7 s hchunk added hmem ih =>
    have hadded : added.Wf := h.extend _
    have hfragment : s.chunk.rtakeWhile (· != newline) = s.chunk :=
      rtakeWhile_eq_self_iff.mpr fun b hb => by simpa using ne_of_mem_of_not_mem hb hmem
    obtain ⟨before, last, hfront⟩ := exists_splitOn_eq newline s.unread
    have hall := splitOn_append hfront (splitOn_eq_singleton hmem)
    have hrest : (added.unread ++ []).splitOn newline = before ++ [last] := by
      rw [append_nil]
      exact hfront
    have hsame : toCome { added with chunk := [] } = s.toCome := by
      rw [toCome_eq hall, ← hfragment, ← current_extend, toCome_eq hrest]
      rfl
    rw [← hsame]
    exact ih ⟨hadded.dropped, hadded.fits⟩

/-- The calls hand out what is to come, one after the other. -/
lemma Wf.scanNext_iterate (h : s.Wf) (k : ℕ) :
    ((fun s => s.scanNext.2)^[k] s).scanNext.1 = s.toCome[k]? := by
  induction k generalizing s with
  | zero => exact h.scanNext_spec.1.trans head?_eq_getElem?
  | succ k ih =>
    obtain ⟨-, hrest, hwf⟩ := h.scanNext_spec
    rw [Function.iterate_succ_apply, ih hwf, hrest, getElem?_tail]

/-- The calls hand out, from the last to the first, the records of the file up to the offset that
are not blank and not too long, and then nothing for ever. -/
theorem scanNext_records {content : List UInt8} {endByteOffset : ℕ} {maxRecordBytes : Option ℕ}
    (h : newAt content endByteOffset maxRecordBytes = some s) (k : ℕ) :
    ((fun s => s.scanNext.2)^[k] s).scanNext.1 =
      (((content.take endByteOffset).splitOn newline).reverse.filterMap
        (kept maxRecordBytes))[k]? := by
  unfold newAt at h
  split_ifs at h with hpast
  cases h
  rw [(wf_of_nil rfl).scanNext_iterate, toCome_of_nil rfl rfl, append_nil]

theorem scanNext_records_two :
    ∃ s, newAt [97, 10, 98] 3 none = some s ∧ s.scanNext.2.scanNext.1 = some [97] :=
  ⟨_, rfl, (@scanNext_records _ [97, 10, 98] 3 none rfl 1).trans (by decide)⟩

end ReverseJsonlScanner

end ExperienceCodex.Rollout

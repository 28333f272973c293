import ExperienceCodex.Runs

/-!
# Resident agent threads

The loaded agent threads stand in a list, the least recently used first, and a slot is reserved
before another is loaded.  An eviction pops its candidate, waits, and may touch it again.  Each
section of the code that holds the lock is one step here, in any order.
-/

namespace ExperienceCodex

structure V2Residency (ι : Type) where
  residents : List ι := []
  pendingSlots : ℕ := 0

namespace V2Residency

inductive Section (ι : Type) where
  | tryReserve
  | popLru (kept : Option ι)
  | touch (t : ι)
  | remove (t : ι)
  | commitSlot (t : ι)
  | releasePendingSlot

variable {ι : Type} [DecidableEq ι] {capacity : ℕ} {s : V2Residency ι}

/-- What counts against the capacity. -/
def used (s : V2Residency ι) : ℕ := s.residents.length + s.pendingSlots

def touchResident (residents : List ι) (t : ι) : List ι := residents.filter (· ≠ t) ++ [t]

/-- A protected thread goes to the end of the list, for so many turns. -/
def popLruCandidate (kept : Option ι) : ℕ → List ι → Option ι × List ι
  | 0, residents => (none, residents)
  | _, [] => (none, [])
  | turns + 1, t :: rest =>
    if some t = kept then popLruCandidate kept turns (rest ++ [t]) else (some t, rest)

/-- One section.  A slot that is committed or dropped is one of those that are pending. -/
def next (capacity : ℕ) (s : V2Residency ι) : Section ι → V2Residency ι
  | .tryReserve => if s.used ≥ capacity then s else { s with pendingSlots := s.pendingSlots + 1 }
  | .popLru kept =>
    { s with residents := (popLruCandidate kept s.residents.length s.residents).2 }
  | .touch t => { s with residents := touchResident s.residents t }
  | .remove t => { s with residents := s.residents.filter (· ≠ t) }
  | .commitSlot t =>
    if s.pendingSlots = 0 then s
    else { residents := touchResident s.residents t, pendingSlots := s.pendingSlots - 1 }
  | .releasePendingSlot => { s with pendingSlots := s.pendingSlots - 1 }

/-- A thread that is touched is resident, or there is room for it. -/
def HasRoom (capacity : ℕ) (s : V2Residency ι) : Section ι → Prop
  | .touch t => t ∈ s.residents ∨ s.used < capacity
  | _ => True

lemma length_popLruCandidate_le (kept : Option ι) (turns : ℕ) (residents : List ι) :
    (popLruCandidate kept turns residents).2.length ≤ residents.length := by
  fun_induction popLruCandidate with
  | case1 | case2 => exact Nat.le_refl _
  | case3 turns t rest hkept ih => simpa using ih
  | case4 turns t rest hkept => exact Nat.le_succ _

lemma touchResident_le_iff {residents : List ι} {t : ι} {pending : ℕ}
    (h : residents.length + pending ≤ capacity) :
    (touchResident residents t).length + pending ≤ capacity ↔
      t ∈ residents ∨ residents.length + pending < capacity := by
  rw [touchResident, List.length_append, List.length_singleton]
  by_cases hmem : t ∈ residents
  · have hlt : (residents.filter (· ≠ t)).length < residents.length :=
      List.length_filter_lt_length_iff_exists.mpr ⟨t, hmem, by simp⟩
    simp only [hmem, true_or, iff_true]
    omega
  · have hall : residents.filter (· ≠ t) = residents :=
      List.filter_eq_self.mpr fun _ hr => decide_eq_true (ne_of_mem_of_not_mem hr hmem)
    rw [hall, or_iff_right hmem]
    omega

/-- From a state within the capacity, only a touch without room leads out of it. -/
lemma used_next_le_iff (op : Section ι) (h : s.used ≤ capacity) :
    (s.next capacity op).used ≤ capacity ↔ s.HasRoom capacity op := by
  cases op with
  | touch t => exact touchResident_le_iff h
  | tryReserve =>
    simp only [next, HasRoom, iff_true]
    split <;> simp only [used] at * <;> omega
  | popLru kept =>
    have hpop := length_popLruCandidate_le kept s.residents.length s.residents
    simp only [next, HasRoom, iff_true, used] at *
    omega
  | remove t =>
    have hfilter := s.residents.length_filter_le (· ≠ t)
    simp only [next, HasRoom, iff_true, used] at *
    omega
  | commitSlot t =>
    simp only [next, HasRoom, iff_true, used] at *
    split
    · exact h
    · show _ + (s.pendingSlots - 1) ≤ _
      exact (touchResident_le_iff (by omega)).mpr (.inr (by omega))
  | releasePendingSlot =>
    simp only [next, HasRoom, iff_true, used] at *
    omega

/-- The resident threads and the pending slots stay within the capacity in just the interleavings
that touch a thread off the list only while there is room for it. -/
theorem used_le_iff_hasRoom (capacity : ℕ) (ops : List (Section ι)) :
    (∀ k, (Runs.run (next capacity) {} (ops.take k)).used ≤ capacity) ↔
      Runs.Along (next capacity) (HasRoom capacity) {} ops :=
  Runs.Along.forall_iff (Q := fun s : V2Residency ι => s.used ≤ capacity)
    (fun _ => used_next_le_iff) (Nat.zero_le capacity)

/-- While one reservation evicts the only resident thread, another takes its place, and then the
thread cannot be unloaded and is touched. -/
theorem used_after_failed_eviction :
    (Runs.run (next 1) ({} : V2Residency ℕ)
      [.tryReserve, .commitSlot 0, .popLru none, .tryReserve, .touch 0]).used = 2 := by
  decide

end V2Residency

end ExperienceCodex

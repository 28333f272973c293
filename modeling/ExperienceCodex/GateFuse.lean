import Mathlib

/-!
# The fuse against takeover loops

The gate counts its hits in a window that the first of them opens.  The next window is opened by the
first call after its end, so the hits at the end of one window and at the beginning of the next can
come within less than a window.

Times are in nanoseconds.
-/

namespace ExperienceCodex.GateFuse

open List

def maxGateHits : ℕ := 15

def gateWindow : ℕ := 60 * 10 ^ 9

/-- When the window was opened, and the hits since. -/
abbrev GateHits := Option (ℕ × ℕ)

/-- Whether one more hit is allowed at a time. -/
def gateHitAllowed (now : ℕ) : GateHits → Bool × GateHits
  | some (started, count) =>
    if now - started < gateWindow then
      if maxGateHits ≤ count then (false, some (started, count))
      else (true, some (started, count + 1))
    else (true, some (now, 1))
  | none => (true, some (now, 1))

/-- The times of the calls that are allowed. -/
def hits : GateHits → List ℕ → List ℕ
  | _, [] => []
  | state, now :: times =>
    if (gateHitAllowed now state).1 then now :: hits (gateHitAllowed now state).2 times
    else hits (gateHitAllowed now state).2 times

/-- No interval shorter than the window holds more times than the fuse allows. -/
def Fused (times : List ℕ) : Prop :=
  ∀ lo hi, hi < lo + gateWindow → times.countP (fun t => lo ≤ t ∧ t ≤ hi) ≤ maxGateHits

/-- The calls of each window, from the window that is open. -/
def windowsFrom (started : ℕ) (current : List ℕ) : List ℕ → List (List ℕ)
  | [] => [current]
  | now :: times =>
    if now - started < gateWindow then windowsFrom started (current ++ [now]) times
    else current :: windowsFrom now [now] times

def windows : List ℕ → List (List ℕ)
  | [] => []
  | now :: times => windowsFrom now [now] times

/-- The calls of a window that are counted. -/
def counted (calls : List ℕ) : List ℕ := calls.take maxGateHits

/-- From each time to the one that the fuse is to stop it is at least a window. -/
def Apart (times : List ℕ) : Prop :=
  ∀ i a b, times[i]? = some a → times[i + maxGateHits]? = some b → a + gateWindow ≤ b

variable {times front cur : List ℕ} {started : ℕ}

lemma Fused.sublist (h : Fused times) (hsub : front.Sublist times) : Fused front :=
  fun lo hi hlt => hsub.countP_le.trans (h lo hi hlt)

lemma countP_le_of_getElem? {k lo hi : ℕ} (hsorted : times.Pairwise (· ≤ ·))
    (h : ∀ b, times[k]? = some b → hi < b) : times.countP (fun t => lo ≤ t ∧ t ≤ hi) ≤ k := by
  have hbehind : (times.drop k).countP (fun t => lo ≤ t ∧ t ≤ hi) = 0 := by
    rw [countP_eq_zero]
    intro t ht
    obtain ⟨i, hlen, rfl⟩ := getElem_of_mem ht
    rw [length_drop] at hlen
    have hk := h _ (getElem?_eq_getElem (show k < times.length by omega))
    have hle : times[k] ≤ times[k + i] := hsorted.rel_get_of_le (by simp)
    rw [decide_eq_true_eq, getElem_drop]
    omega
  rw [← take_append_drop k times, countP_append, hbehind]
  exact countP_le_length.trans (length_take_le k times)

lemma fused_iff (hsorted : times.Pairwise (· ≤ ·)) : Fused times ↔ Apart times := by
  constructor
  · intro h i a b ha hb
    by_contra hlt
    obtain ⟨hi, rfl⟩ := List.getElem?_eq_some_iff.mp ha
    obtain ⟨hj, rfl⟩ := List.getElem?_eq_some_iff.mp hb
    have hrun := h.sublist ((List.take_sublist (maxGateHits + 1) _).trans
      (drop_sublist i times)) times[i] times[i + maxGateHits] (by omega)
    rw [countP_eq_length.mpr, length_take, length_drop] at hrun
    · omega
    · intro t ht
      obtain ⟨j, hlen, rfl⟩ := getElem_of_mem ht
      rw [length_take, length_drop] at hlen
      rw [decide_eq_true_eq, getElem_take, getElem_drop]
      exact ⟨hsorted.rel_get_of_le (by simp), hsorted.rel_get_of_le (by simp; omega)⟩
  · intro h lo hi hlt
    induction times with
    | nil => exact Nat.zero_le _
    | cons first times ih =>
      by_cases hin : lo ≤ first ∧ first ≤ hi
      · apply countP_le_of_getElem? hsorted
        intro b hb
        have hrun := h 0 first b rfl (by rwa [Nat.zero_add])
        omega
      · rw [countP_cons_of_neg (by rwa [decide_eq_true_eq])]
        exact ih hsorted.of_cons fun i a b ha hb => h (i + 1) a b ha (by rwa [Nat.add_right_comm])

lemma windowsFrom_flatten (started : ℕ) (cur times : List ℕ) :
    (windowsFrom started cur times).flatten = cur ++ times := by
  fun_induction windowsFrom started cur times with
  | case1 started cur => simp
  | case2 started cur now times hin ih => simp [ih]
  | case3 started cur now times hout ih => simp [ih]

/-- The hits are the calls that are counted in each window. -/
lemma append_hits (started : ℕ) (cur times : List ℕ) :
    counted cur ++ hits (some (started, min maxGateHits cur.length)) times =
      (windowsFrom started cur times).flatMap counted := by
  fun_induction windowsFrom started cur times with
  | case1 started cur => simp [hits]
  | case2 started cur now times hin ih =>
    rw [← ih, hits, gateHitAllowed, if_pos hin, length_append, length_singleton, counted, counted]
    by_cases hfull : maxGateHits ≤ cur.length
    · rw [Nat.min_eq_left hfull, Nat.min_eq_left (by omega), if_pos le_rfl,
        take_append_of_le_length hfull]
      rfl
    · rw [Nat.min_eq_right (by omega), Nat.min_eq_right (by omega), if_neg hfull,
        take_of_length_le (by omega), take_of_length_le (by simp; omega)]
      simp
  | case3 started cur now times hout ih =>
    rw [hits, gateHitAllowed, if_neg hout, flatMap_cons, ← ih]
    rfl

lemma exists_windowsFrom (hsorted : times.Pairwise (· ≤ ·)) :
    ∃ first later, windowsFrom started cur times = first :: later ∧
      ∀ t ∈ later.flatten, started + gateWindow ≤ t := by
  fun_induction windowsFrom started cur times with
  | case1 started cur => exact ⟨cur, [], rfl, by simp⟩
  | case2 started cur now times hin ih => exact ih hsorted.of_cons
  | case3 started cur now times hout ih =>
    have hnow : started + gateWindow ≤ now := by
      have hpos : 0 < gateWindow := by decide
      omega
    refine ⟨cur, _, rfl, ?_⟩
    rw [windowsFrom_flatten, singleton_append, forall_mem_cons]
    exact ⟨hnow, fun t ht => hnow.trans ((pairwise_cons.mp hsorted).1 t ht)⟩

lemma flatMap_counted_sublist (lists : List (List ℕ)) :
    (lists.flatMap counted).Sublist lists.flatten := by
  induction lists with
  | nil => exact Sublist.refl _
  | cons first lists ih =>
    rw [flatMap_cons, flatten_cons]
    exact (take_sublist _ _).append ih

/-- An interval shorter than the window meets two windows at most. -/
lemma fused_of_isChain (hsorted : (cur ++ times).Pairwise (· ≤ ·))
    (h : (windowsFrom started cur times).IsChain fun front next =>
      Apart (counted front ++ counted next)) :
    Fused ((windowsFrom started cur times).flatMap counted) := by
  fun_induction windowsFrom started cur times with
  | case1 started cur =>
    intro lo hi _
    refine countP_le_length.trans ?_
    simp [counted]
  | case2 started cur now times hin ih => exact ih (by simpa using hsorted) h
  | case3 started cur now times hout ih =>
    obtain ⟨-, hsorted', hbefore⟩ := pairwise_append.mp hsorted
    obtain ⟨next, later, hwindows, hlater⟩ : ∃ next later, windowsFrom now [now] times = _ ∧ _ :=
      exists_windowsFrom hsorted'.of_cons
    have hsub := (take_sublist maxGateHits cur).append
      (flatMap_counted_sublist (windowsFrom now [now] times))
    have hnext := ih hsorted' h.tail
    rw [windowsFrom_flatten] at hsub
    rw [hwindows] at h hnext hsub ⊢
    intro lo hi hlt
    by_cases hmeets : ∃ t ∈ cur, lo ≤ t ∧ t ≤ hi
    · obtain ⟨t, ht, hlo, -⟩ := hmeets
      have hle := hbefore t ht now mem_cons_self
      have hnone : (later.flatMap counted).countP (fun t => lo ≤ t ∧ t ≤ hi) = 0 := by
        rw [countP_eq_zero]
        intro t' ht'
        have hfar := hlater t' ((flatMap_counted_sublist later).subset ht')
        rw [decide_eq_true_eq]
        omega
      rw [flatMap_cons, ← append_assoc] at hsub
      rw [flatMap_cons, flatMap_cons, ← append_assoc, countP_append, hnone]
      exact (fused_iff (hsorted.sublist ((sublist_append_left _ _).trans hsub))).mpr h.rel
        lo hi hlt
    · have hnone : (counted cur).countP (fun t => lo ≤ t ∧ t ≤ hi) = 0 := by
        rw [countP_eq_zero]
        intro t ht hin
        exact hmeets ⟨t, mem_of_mem_take ht, of_decide_eq_true hin⟩
      rw [flatMap_cons, countP_append, hnone, Nat.zero_add]
      exact hnext lo hi hlt

/-- The fuse holds in every interval shorter than the window if and only if the calls that are
counted in windows one after the other are apart. -/
theorem fused_hits_iff (times : List ℕ) (hsorted : times.Pairwise (· ≤ ·)) :
    Fused (hits none times) ↔
      (windows times).IsChain fun front next => Apart (counted front ++ counted next) := by
  cases times with
  | nil => exact ⟨fun _ => .nil, fun _ _ _ _ => Nat.zero_le _⟩
  | cons now times =>
    have hhits : hits none (now :: times) = _ := append_hits now [now] times
    rw [hhits, windows]
    refine ⟨fun h => ?_, fun h => fused_of_isChain hsorted h⟩
    have hsub := flatMap_counted_sublist (windowsFrom now [now] times)
    rw [windowsFrom_flatten] at hsub
    rw [isChain_iff_forall_rel_of_append_cons_cons]
    intro front next before after hsplit
    have htwo : (counted front ++ counted next).Sublist
        ((windowsFrom now [now] times).flatMap counted) := by
      rw [hsplit, flatMap_append, flatMap_cons, flatMap_cons, ← append_assoc (counted front)]
      exact (sublist_append_left _ _).trans (sublist_append_right _ _)
    exact (fused_iff (hsorted.sublist (htwo.trans hsub))).mp (h.sublist htwo)

/-- More calls than are allowed, in two windows. -/
theorem fused_hits_two :
    Fused (hits none (List.replicate 17 0 ++ List.replicate 16 (120 * 10 ^ 9))) :=
  (fused_hits_iff _ (by decide +kernel)).mpr <| by
    have hwindows : windows (List.replicate 17 0 ++ List.replicate 16 (120 * 10 ^ 9)) =
        [List.replicate 17 0, List.replicate 16 (120 * 10 ^ 9)] := by decide +kernel
    rw [hwindows, isChain_pair]
    have hcounted : counted (List.replicate 17 0) ++ counted (List.replicate 16 (120 * 10 ^ 9)) =
        List.replicate 15 0 ++ List.replicate 15 (120 * 10 ^ 9) := by decide +kernel
    intro i a b ha hb
    rw [hcounted] at ha hb
    -- the first fifteen are a window before the last fifteen
    have hi : i < 15 := by
      have hlt := (List.getElem?_eq_some_iff.mp hb).1
      simp only [length_append, length_replicate, maxGateHits] at hlt
      omega
    rw [getElem?_append_right (by simp [maxGateHits]), getElem?_replicate] at hb
    split_ifs at hb
    rw [← Option.some.inj hb]
    rw [getElem?_append_left (by simpa using hi), getElem?_replicate, if_pos hi] at ha
    rw [← Option.some.inj ha]
    decide

/-- One call, as many as are allowed at the end of its window, and as many right after. -/
def burst : List ℕ :=
  0 :: (List.replicate 14 (59 * 10 ^ 9) ++ List.replicate 15 (60 * 10 ^ 9))

theorem burst_not_fused : burst.Pairwise (· ≤ ·) ∧ ¬Fused (hits none burst) := by
  refine ⟨by decide +kernel, fun h => ?_⟩
  have hburst := h (59 * 10 ^ 9) (60 * 10 ^ 9) (by decide)
  revert hburst
  decide +kernel

end ExperienceCodex.GateFuse

import ExperienceCodex.Runs
import Mathlib.Data.List.AList

/-!
# Agent slots

The registry counts the agents that are reserved or registered apart from the two maps that name
them.  Each section of the code that holds the lock of the maps, and each operation on the counter,
is one step here, in any order.
-/

namespace ExperienceCodex

/-- Where an agent stands in the tree: at its path, or at its thread if it has none. -/
inductive AgentKey (ι π : Type) where
  | path (p : π)
  | thread (t : ι)
deriving DecidableEq

/-- The tree says which thread an agent has; a path that is only reserved has none.  Beside the
registry stand the reservations that are out, and the released agents that are still counted. -/
structure AgentRegistry (ι π : Type) where
  agentTree : AList fun _ : AgentKey ι π => Option ι := ∅
  threadPaths : AList fun _ : ι => AgentKey ι π := ∅
  totalCount : ℕ := 0
  reservations : ℕ := 0
  releasing : ℕ := 0

namespace AgentRegistry

inductive Section (ι π : Type) where
  | reserveSpawnSlot (maxThreads : Option ℕ)
  | reserveAgentPath (p : π)
  | releaseReservedAgentPath (p : π)
  | commit (t : ι) (p : Option π)
  | drop
  | releaseSpawnedThread (t : ι)
  | countReleased
  | registerRootThread (t : ι)

section
variable {κ ν : Type} [DecidableEq κ] (m : AList fun _ : κ => ν) (k k' : κ)

lemma lookup_insert_eq_ite (v : ν) :
    (m.insert k v).lookup k' = if k' = k then some v else m.lookup k' := by
  split_ifs with h
  · subst h
    exact m.lookup_insert
  · exact AList.lookup_insert_ne h

lemma lookup_erase_eq_ite : (m.erase k).lookup k' = if k' = k then none else m.lookup k' := by
  split_ifs with h
  · subst h
    exact AList.lookup_erase k' m
  · exact AList.lookup_erase_ne h

lemma countP_erase (p : ((_ : κ) × ν) → Bool) :
    (m.erase k).entries.countP p + (if (m.lookup k).any (p ⟨k, ·⟩) then 1 else 0) =
      m.entries.countP p := by
  cases hv : m.lookup k with
  | none =>
    have hkeys : k ∉ m.entries.keys := AList.lookup_eq_none.mp hv
    show (m.entries.kerase k).countP p + 0 = _
    rw [List.kerase_of_notMem_keys hkeys]
    rfl
  | some v =>
    have hmem : ⟨k, v⟩ ∈ m.entries := AList.mem_lookup_iff.mp hv
    obtain ⟨w, before, after, -, hentries, hrest⟩ :=
      List.exists_of_kerase (List.mem_keys_of_mem hmem)
    have hw : w = v := by
      have hfound : m.lookup k = some w := AList.mem_lookup_iff.mpr (by simp [hentries])
      exact Option.some.inj (hfound.symm.trans hv)
    subst hw
    show (m.entries.kerase k).countP p + _ = _
    rw [hrest, hentries]
    simp only [List.countP_append, List.countP_cons, Option.any_some]
    omega

lemma countP_insert (v : ν) (p : ((_ : κ) × ν) → Bool) :
    (m.insert k v).entries.countP p =
      (m.erase k).entries.countP p + if p ⟨k, v⟩ then 1 else 0 := by
  rw [AList.entries_insert, List.countP_cons]
  rfl

end

section
variable {ι π : Type} [DecidableEq ι] [DecidableEq π] (root : π) (s : AgentRegistry ι π)

def isLive (agent : (_ : AgentKey ι π) × Option ι) : Bool :=
  agent.2.isSome && agent.1 ≠ .path root

def liveAgents : ℕ := s.agentTree.entries.countP (isLive root)

/-- The tree without the other place of a thread. -/
def removePrevious (t : ι) (key : AgentKey ι π) : AList fun _ : AgentKey ι π => Option ι :=
  match s.threadPaths.lookup t with
  | some previous => if previous ≠ key then s.agentTree.erase previous else s.agentTree
  | none => s.agentTree

def registerSpawnedThread (t : ι) (key : AgentKey ι π) : AgentRegistry ι π :=
  let tree := s.removePrevious t key
  let paths := s.threadPaths.insert t key
  { s with
    agentTree := tree.insert key (some t)
    threadPaths := match tree.lookup key with
      | some (some previous) => if previous ≠ t then paths.erase previous else paths
      | _ => paths }

/-- One section.  A reservation that is committed or dropped is one of those that are out. -/
def next : Section ι π → AgentRegistry ι π
  | .reserveSpawnSlot maxThreads =>
    if maxThreads.any (· ≤ s.totalCount) then s
    else { s with totalCount := s.totalCount + 1, reservations := s.reservations + 1 }
  | .reserveAgentPath p =>
    if .path p ∈ s.agentTree then s else { s with agentTree := s.agentTree.insert (.path p) none }
  | .releaseReservedAgentPath p =>
    if s.agentTree.lookup (.path p) = some none then
      { s with agentTree := s.agentTree.erase (.path p) }
    else s
  | .commit t p =>
    if s.reservations = 0 then s
    else
      { s.registerSpawnedThread t (p.elim (.thread t) .path) with
        reservations := s.reservations - 1 }
  | .drop =>
    if s.reservations = 0 then s
    else { s with totalCount := s.totalCount - 1, reservations := s.reservations - 1 }
  | .releaseSpawnedThread t =>
    match s.threadPaths.lookup t with
    | none => s
    | some key =>
      { s with
        threadPaths := s.threadPaths.erase t
        agentTree := s.agentTree.erase key
        releasing := s.releasing +
          if (s.agentTree.lookup key).isSome && key ≠ .path root then 1 else 0 }
  | .countReleased =>
    if s.releasing = 0 then s
    else { s with totalCount := s.totalCount - 1, releasing := s.releasing - 1 }
  | .registerRootThread t =>
    let tree := if .path root ∈ s.agentTree then s.agentTree
      else s.agentTree.insert (.path root) (some t)
    { s with
      agentTree := tree
      threadPaths := match tree.lookup (.path root) with
        | some (some id) => s.threadPaths.insert id (.path root)
        | _ => s.threadPaths }

/-- The maps name each other, and the counter holds the reservations and the registered agents. -/
structure Counted : Prop where
  total : s.totalCount = s.reservations + s.liveAgents root
  named : ∀ t key, s.threadPaths.lookup t = some key ↔ s.agentTree.lookup key = some (some t)

/-- What a run keeps: an agent counts until its release has reached the counter. -/
structure Balanced : Prop where
  total : s.totalCount = s.reservations + s.liveAgents root + s.releasing
  named : ∀ t key, s.threadPaths.lookup t = some key ↔ s.agentTree.lookup key = some (some t)

/-- Neither the thread nor the place is an agent's, and it is not the place of the root. -/
def Free (t : ι) (key : AgentKey ι π) : Prop :=
  key ≠ .path root ∧ (∀ other, s.threadPaths.lookup t = some other → other = .path root) ∧
    ∀ other, s.agentTree.lookup key ≠ some (some other)

/-- A commit is for a free thread and place, and the thread of a new root is no agent's. -/
def Fresh : Section ι π → Prop
  | .commit t p => s.reservations = 0 ∨ s.Free root t (p.elim (.thread t) .path)
  | .registerRootThread t => .path root ∈ s.agentTree ∨ s.threadPaths.lookup t = none
  | _ => True

variable {root s}

lemma lookup_removePrevious (t : ι) (key key' : AgentKey ι π) :
    (s.removePrevious t key).lookup key' =
      if s.threadPaths.lookup t = some key' ∧ key' ≠ key then none
      else s.agentTree.lookup key' := by
  unfold removePrevious
  split
  · split_ifs <;> grind [lookup_erase_eq_ite]
  · simp_all

lemma Balanced.named_register (h : s.Balanced root) (t : ι) (key : AgentKey ι π) (t' : ι)
    (key' : AgentKey ι π) :
    (s.registerSpawnedThread t key).threadPaths.lookup t' = some key' ↔
      (s.registerSpawnedThread t key).agentTree.lookup key' = some (some t') := by
  have hnew := h.named t key'
  have hold := h.named t' key
  have hother := h.named t' key'
  have hagent := lookup_removePrevious (s := s) t key key
  simp only [ne_eq, not_true_eq_false, and_false, if_false] at hagent
  simp only [registerSpawnedThread, hagent, lookup_insert_eq_ite, lookup_removePrevious]
  rcases hplace : s.agentTree.lookup key with _ | _ | previous
  · grind [lookup_insert_eq_ite]
  · grind [lookup_insert_eq_ite]
  · grind [lookup_insert_eq_ite, lookup_erase_eq_ite]

lemma Balanced.liveAgents_register_iff (h : s.Balanced root) (t : ι) (key : AgentKey ι π) :
    (s.registerSpawnedThread t key).liveAgents root = s.liveAgents root + 1 ↔
      s.Free root t key := by
  have hkey := countP_erase (s.removePrevious t key) key (isLive root)
  simp only [registerSpawnedThread, liveAgents, countP_insert, Free]
  rw [lookup_removePrevious] at hkey
  simp only [removePrevious] at *
  cases hprev : s.threadPaths.lookup t with
  | none =>
    rcases hagent : s.agentTree.lookup key with _ | _ | other
    all_goals
      simp [hprev, hagent, isLive] at hkey ⊢
      grind
  | some previous =>
    have hthread := (h.named t previous).mp hprev
    have hfirst := countP_erase s.agentTree previous (isLive root)
    by_cases hne : previous = key
    · subst hne
      simp [hprev, hthread, isLive] at hkey ⊢
      grind
    · rcases hagent : s.agentTree.lookup key with _ | _ | other
      all_goals
        simp [hprev, hagent, hthread, hne, isLive] at hfirst hkey ⊢
        grind

lemma balanced_commit_iff (t : ι) (p : Option π) (h : s.Balanced root) :
    (s.next root (.commit t p)).Balanced root ↔ s.Fresh root (.commit t p) := by
  have htotal := h.total
  simp only [next, Fresh]
  split_ifs with hout
  · simp [hout, h]
  · have hlive := h.liveAgents_register_iff t (p.elim (.thread t) .path)
    rw [or_iff_right hout, ← hlive]
    refine ⟨fun h' => ?_, fun hlive => ⟨?_, h.named_register t _⟩⟩
    · have htotal' := h'.total
      simp only [liveAgents, registerSpawnedThread] at htotal htotal' ⊢
      omega
    · simp only [liveAgents, registerSpawnedThread] at htotal hlive ⊢
      omega

lemma balanced_registerRootThread_iff (t : ι) (h : s.Balanced root) :
    (s.next root (.registerRootThread t)).Balanced root ↔
      s.Fresh root (.registerRootThread t) := by
  have ⟨htotal, hnamed⟩ := h
  simp only [next, Fresh]
  by_cases hmem : AgentKey.path root ∈ s.agentTree
  · simp only [hmem, if_true, true_or, iff_true]
    refine ⟨htotal, fun t' key => ?_⟩
    dsimp only
    split
    · next id hid =>
      have hroot := (hnamed id (.path root)).mpr hid
      have hother := hnamed t' key
      rw [lookup_insert_eq_ite]
      grind
    · exact hnamed t' key
  · have hnone := AList.lookup_eq_none.mpr hmem
    simp only [hmem, if_false, false_or, AList.lookup_insert]
    refine ⟨fun h' => ?_, fun hfree => ⟨?_, fun t' key => ?_⟩⟩
    · by_contra hsome
      obtain ⟨key, hkey⟩ := Option.ne_none_iff_exists'.mp hsome
      have hagent := (hnamed t key).mp hkey
      have hnamed' := h'.named t key
      simp only [lookup_insert_eq_ite] at hnamed'
      grind
    · have hcount := countP_erase s.agentTree (.path root) (isLive root)
      simp only [liveAgents, countP_insert] at htotal ⊢
      simp [hnone, isLive] at hcount ⊢
      omega
    · have hother := hnamed t' key
      simp only [lookup_insert_eq_ite]
      grind

lemma balanced_next_iff (op : Section ι π) (h : s.Balanced root) :
    (s.next root op).Balanced root ↔ s.Fresh root op := by
  have ⟨htotal, hnamed⟩ := h
  cases op with
  | reserveSpawnSlot maxThreads | drop | countReleased =>
    simp only [next, Fresh, iff_true]
    split_ifs
    · exact h
    · refine ⟨?_, hnamed⟩
      simp only [liveAgents] at htotal ⊢
      omega
  | reserveAgentPath p =>
    simp only [next, Fresh, iff_true]
    split_ifs with hmem
    · exact h
    · have hnone := AList.lookup_eq_none.mpr hmem
      have hcount := countP_erase s.agentTree (.path p) (isLive root)
      refine ⟨?_, ?_⟩
      · simp only [liveAgents, countP_insert] at htotal ⊢
        simp [hnone, isLive] at hcount ⊢
        omega
      · intro t key
        simp only [lookup_insert_eq_ite]
        grind
  | releaseReservedAgentPath p =>
    simp only [next, Fresh, iff_true]
    split_ifs with hres
    · have hcount := countP_erase s.agentTree (.path p) (isLive root)
      refine ⟨?_, ?_⟩
      · simp only [liveAgents] at htotal ⊢
        simp [hres, isLive] at hcount
        omega
      · intro t key
        simp only [lookup_erase_eq_ite]
        grind
    · exact h
  | commit t p => exact balanced_commit_iff t p h
  | releaseSpawnedThread t =>
    simp only [next, Fresh, iff_true]
    cases hkey : s.threadPaths.lookup t with
    | none => exact h
    | some key =>
      have hagent := (hnamed t key).mp hkey
      have hcount := countP_erase s.agentTree key (isLive root)
      refine ⟨?_, ?_⟩
      · simp only [liveAgents] at htotal ⊢
        simp [hagent, isLive] at hcount ⊢
        omega
      · intro t' key'
        simp only [lookup_erase_eq_ite]
        grind
  | registerRootThread t => exact balanced_registerRootThread_iff t h

/-- Between the two steps of a release the counter is one ahead. -/
lemma Balanced.counted_iff (h : s.Balanced root) : s.Counted root ↔ s.releasing = 0 := by
  have htotal := h.total
  refine ⟨fun hcount => ?_, fun hzero => ⟨by omega, h.named⟩⟩
  have := hcount.total
  omega

/-- A step that is not fresh starts no release, so that the sum is wrong after it. -/
lemma Balanced.fresh_of_counted_next (h : s.Balanced root) (hzero : s.releasing = 0)
    {op : Section ι π} (hnext : (s.next root op).Counted root) : s.Fresh root op := by
  cases op with
  | commit t p =>
    refine (balanced_next_iff (.commit t p) h).mp ⟨hnext.total.trans ?_, hnext.named⟩
    simp only [next, registerSpawnedThread]
    split_ifs <;> simp [hzero]
  | registerRootThread t =>
    exact (balanced_next_iff (.registerRootThread t) h).mp
      ⟨hnext.total.trans (by simp [next, hzero]), hnext.named⟩
  | _ => trivial

lemma Balanced.along_of_counted (h : s.Balanced root) {ops : List (Section ι π)}
    (hcount : ∀ k, (Runs.run (next root) s (ops.take k)).Counted root) :
    Runs.Along (next root) (Fresh root) s ops := by
  induction ops generalizing s with
  | nil => trivial
  | cons op ops ih =>
    have hfresh := h.fresh_of_counted_next (h.counted_iff.mp (hcount 0)) (hcount 1)
    exact ⟨hfresh, ih ((balanced_next_iff op h).mpr hfresh) fun k => hcount (k + 1)⟩

/-- The maps name each other and the counter is right in just the interleavings that commit each
agent to a thread and a place that no other has, make no registered thread the root, and are not
between the two steps of a release.  A limit then refuses only when so many agents are reserved or
registered. -/
theorem counted_iff_fresh (ops : List (Section ι π)) :
    ((∀ k, (Runs.run (next root) {} (ops.take k)).Counted root) ↔
      Runs.Along (next root) (Fresh root) {} ops ∧
        ∀ k, (Runs.run (next root) {} (ops.take k)).releasing = 0) ∧
    (Runs.Along (next root) (Fresh root) {} ops → ∀ k,
      ((Runs.run (next root) {} (ops.take k)).Counted root ↔
        (Runs.run (next root) {} (ops.take k)).releasing = 0)) ∧
    ∀ s : AgentRegistry ι π, s.Counted root → ∀ maxThreads,
      (s.next root (.reserveSpawnSlot (some maxThreads))).reservations = s.reservations →
        maxThreads ≤ s.reservations + s.liveAgents root := by
  have hstart : ({} : AgentRegistry ι π).Balanced root := ⟨rfl, by simp⟩
  have hiff : Runs.Along (next root) (Fresh root) {} ops → ∀ k,
      ((Runs.run (next root) {} (ops.take k)).Counted root ↔
        (Runs.run (next root) {} (ops.take k)).releasing = 0) := fun h k =>
    (h.invariant (Q := fun s : AgentRegistry ι π => s.Balanced root)
      (fun _ op hs => (balanced_next_iff op hs).mpr) hstart k).counted_iff
  refine ⟨⟨fun hcount => ?_, fun h k => (hiff h.1 k).mpr (h.2 k)⟩, hiff,
    fun s h maxThreads hrefused => ?_⟩
  · have halong := hstart.along_of_counted hcount
    exact ⟨halong, fun k => (hiff halong k).mp (hcount k)⟩
  · rw [← h.total]
    by_contra hfree
    simp [next, hfree] at hrefused

/-- A thread is resumed while it is registered, and then released. -/
def resumedTwice : AgentRegistry ℕ String :=
  Runs.run (next "/root") {}
    [.reserveSpawnSlot none, .commit 0 none, .reserveSpawnSlot none, .commit 0 none,
      .releaseSpawnedThread 0, .countReleased]

/-- It stays counted, and a limit of one refuses for good. -/
theorem resumedTwice_refuses :
    resumedTwice.reservations = 0 ∧ resumedTwice.liveAgents "/root" = 0 ∧
      resumedTwice.releasing = 0 ∧ resumedTwice.totalCount = 1 ∧
        (resumedTwice.next "/root" (.reserveSpawnSlot (some 1))).reservations = 0 := by
  decide

end

end AgentRegistry

end ExperienceCodex

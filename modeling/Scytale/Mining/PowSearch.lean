/-
  Scytale.Mining.PowSearch — the nonce search (crates/scytale-mining/src/worker.rs).

  `run_pow_search` encodes one header and writes each nonce over its last eight bytes. A short
  search runs on its own thread (`searchLoop`); a longer one shares the nonces out among up to
  eight workers. They look at two flags, at every 4096th nonce: `cancel`, which others set and
  clear, and `found`. `SearchStep` is a step of one of them, or of whoever holds the flag, in
  any order. The flag is read once more when all workers have returned.
  - `patchNonce_header`: the patched bytes are the encoding of the header with that nonce.
  - `nonces_shared`: the workers' nonces are those of the range, each once.
  - `searched`: what a worker has passed by misses the target.
  - `pow_search_kept`: a header that is returned is a solution of the range; and unless a flag
    that was set is cleared before the end, an exhausted search has missed none. A worker that
    stopped for a flag that is clear again leaves its nonces unsearched: `cleared_flag_exhausts`.
-/
import Scytale.Mining.Template
import Scytale.Consensus.Target
import Scytale.Lib.Chunks
import Scytale.Core.Codec
import Scytale.Blake3
import Mathlib.Logic.Relation

namespace Scytale

open Lib

/-- The variants of `MiningError` a search returns. -/
inductive PowSearchError where
  | cancelled (height : UInt64)
  | exhaustedNonce (height searched : UInt64)
  deriving DecidableEq

/-- The nonce over the last eight bytes, where there are as many. -/
def patchNonce (headerBytes : Bytes) (nonce : UInt64) : Bytes :=
  if headerBytes.length ≥ 8 then headerBytes.take (headerBytes.length - 8) ++ u64le nonce else headerBytes

/-- `available_parallelism`, up to eight; four where it is not known. -/
def numThreads (availableParallelism : Option Nat) : Nat :=
  match availableParallelism with
  | some n => min n 8
  | none => 4

/-! ## On one thread -/

inductive LoopResult where
  | cancelled
  | found (nonce : UInt64)
  | exhausted
  deriving DecidableEq

/-- The loop over `remaining` nonces from the `i`-th on; `cancel i` is what the flag reads
    there. -/
def searchLoop (meets : UInt64 → Bool) (cancel : Nat → Bool) (startNonce : UInt64) : Nat → Nat → LoopResult
  | 0, _ => .exhausted
  | remaining + 1, i =>
    if i % 4096 = 0 ∧ cancel i = true then .cancelled
    else if meets (startNonce + UInt64.ofNat i) then .found (startNonce + UInt64.ofNat i)
    else searchLoop meets cancel startNonce remaining (i + 1)

/-! ## Several workers -/

inductive WorkerStatus where
  | running
  /-- It has passed its whole range. -/
  | done
  | solved
  /-- It saw a flag. -/
  | left
  deriving DecidableEq

/-- The nonces of its range a worker has passed, and whether it has returned. -/
structure Worker where
  next : Nat
  status : WorkerStatus
  deriving DecidableEq

/-- What the workers share, and each of them. -/
structure Search where
  cancel : Bool
  found : Bool
  solvedNonce : UInt64
  workers : Nat → Worker

section
variable (meets : UInt64 → Bool) (startNonce maxIterations : UInt64) (n : Nat)

/-- The `i`-th nonce of worker `t`. -/
def workerNonce (t i : Nat) : UInt64 :=
  startNonce + UInt64.ofNat (shareStart maxIterations.toNat n t) + UInt64.ofNat i

def Search.start (cancel : Bool) : Search := ⟨cancel, false, 0, fun _ => ⟨0, .running⟩⟩

def Search.set (s : Search) (t : Nat) (w : Worker) : Search := { s with workers := Function.update s.workers t w }

inductive SearchStep : Search → Search → Prop
  | flag (s : Search) (b : Bool) : SearchStep s { s with cancel := b }
  | leave (s : Search) (t : Nat) : t < n → (s.workers t).status = .running →
      (s.workers t).next < shareSize maxIterations.toNat n t → (s.workers t).next % 4096 = 0 →
      (s.cancel || s.found) = true → SearchStep s (s.set t { s.workers t with status := .left })
  | miss (s : Search) (t : Nat) : t < n → (s.workers t).status = .running →
      (s.workers t).next < shareSize maxIterations.toNat n t →
      ((s.workers t).next % 4096 = 0 → (s.cancel || s.found) = false) →
      meets (workerNonce startNonce maxIterations n t (s.workers t).next) = false →
      SearchStep s (s.set t { s.workers t with next := (s.workers t).next + 1 })
  -- the nonce is stored before the flag is set; nobody reads it before the end
  | hit (s : Search) (t : Nat) : t < n → (s.workers t).status = .running →
      (s.workers t).next < shareSize maxIterations.toNat n t →
      ((s.workers t).next % 4096 = 0 → (s.cancel || s.found) = false) →
      meets (workerNonce startNonce maxIterations n t (s.workers t).next) = true →
      SearchStep s { s.set t { s.workers t with status := .solved } with
        found := true, solvedNonce := workerNonce startNonce maxIterations n t (s.workers t).next }
  | finish (s : Search) (t : Nat) : t < n → (s.workers t).status = .running →
      (s.workers t).next = shareSize maxIterations.toNat n t →
      SearchStep s (s.set t { s.workers t with status := .done })

/-- Every worker has returned. -/
def Search.Joined (s : Search) : Prop := ∀ t < n, (s.workers t).status ≠ .running

/-- What is read off the flags then. -/
def Search.result (s : Search) : LoopResult :=
  if s.cancel then .cancelled else if s.found then .found s.solvedNonce else .exhausted

/-- The flag, once set, stays. -/
def KeepsFlag (a b : Search) : Prop := a.cancel = true → b.cancel = true

end

namespace BlockTemplate

variable (H : Hasher)

def target (t : BlockTemplate) : Target := Target.fromCompact t.compactTarget

def answer (t : BlockTemplate) (startNonce maxIterations : UInt64) : LoopResult → Except PowSearchError BlockHeader
  | .cancelled => .error (.cancelled t.height)
  | .found nonce => .ok { t.buildHeader H startNonce with nonce }
  | .exhausted => .error (.exhaustedNonce t.height maxIterations)

/-- What `run_pow_search` can return, when only `allowed` steps of its workers occur. -/
def RunPowSearch (allowed : Search → Search → Prop) (availableParallelism : Option Nat) (t : BlockTemplate)
    (startNonce maxIterations : UInt64) (r : Except PowSearchError BlockHeader) : Prop :=
  match (t.buildHeader H startNonce).toCanonicalBytes with
  | .error _ => r = .error (.exhaustedNonce t.height 0)
  | .ok protoBytes =>
    let meets : UInt64 → Bool := fun nonce => t.target.isMetBy (H (patchNonce protoBytes nonce))
    let n := numThreads availableParallelism
    if maxIterations < 100000 ∨ n ≤ 1 then
      ∃ cancel : Nat → Bool,
        r = t.answer H startNonce maxIterations (searchLoop meets cancel startNonce maxIterations.toNat 0)
    else
      ∃ (cancel : Bool) (s : Search),
        Relation.ReflTransGen (fun a b => SearchStep meets startNonce maxIterations n a b ∧ allowed a b) (.start cancel) s ∧
          s.Joined n ∧ r = t.answer H startNonce maxIterations s.result

end BlockTemplate

/-! ## The bytes that are hashed -/

theorem patchNonce_header (header : BlockHeader) (nonce : UInt64) :
    patchNonce header.canonicalBytes nonce = { header with nonce }.canonicalBytes := by
  have hsplit : ∀ h : BlockHeader, h.canonicalBytes = (u32le h.version ++ h.previousBlockHash.bytes ++
      h.transactionCommitment.bytes ++ h.utxoRoot.bytes ++ u64le h.timestamp ++ u32le h.difficultyTarget) ++ u64le h.nonce :=
    fun _ => rfl
  rw [hsplit header, hsplit, patchNonce, List.length_append, u64le_length, if_pos (by omega), Nat.add_sub_cancel,
    List.take_left' rfl]

/-! ## The range -/

section
variable {meets : UInt64 → Bool} {startNonce maxIterations : UInt64} {n : Nat}

theorem workerNonce_eq (t i : Nat) : workerNonce startNonce maxIterations n t i =
    startNonce + UInt64.ofNat (shareStart maxIterations.toNat n t + i) := by
  rw [workerNonce, UInt64.ofNat_add, UInt64.add_assoc]

/-- The nonces of a range, in order; they wrap around. -/
def rangeNonces (startNonce maxIterations : UInt64) : List UInt64 :=
  (List.range maxIterations.toNat).map fun k => startNonce + UInt64.ofNat k

theorem rangeNonces_nodup (startNonce maxIterations : UInt64) : (rangeNonces startNonce maxIterations).Nodup := by
  refine List.Nodup.map_on ?_ List.nodup_range
  intro a ha b hb heq
  have ha := List.mem_range.mp ha
  have hb := List.mem_range.mp hb
  have hlt := maxIterations.toNat_lt
  have heq := congrArg UInt64.toNat ((UInt64.add_right_inj _).mp heq)
  rw [UInt64.toNat_ofNat', UInt64.toNat_ofNat', Nat.mod_eq_of_lt (by omega), Nat.mod_eq_of_lt (by omega)] at heq
  exact heq

/-- The workers' nonces, worker after worker, are those of the range. -/
theorem nonces_shared (startNonce maxIterations : UInt64) (hn : 0 < n) :
    ((List.range n).flatMap fun t => (List.range (shareSize maxIterations.toNat n t)).map
      (workerNonce startNonce maxIterations n t)) = rangeNonces startNonce maxIterations := by
  rw [rangeNonces, ← flatMap_share maxIterations.toNat hn, List.map_flatMap]
  refine List.flatMap_congr fun t _ => ?_
  rw [List.map_map]
  exact List.map_congr_left fun i _ => workerNonce_eq t i

theorem workerNonce_mem {t i : Nat} (ht : t < n) (hi : i < shareSize maxIterations.toNat n t) :
    workerNonce startNonce maxIterations n t i ∈ rangeNonces startNonce maxIterations := by
  rw [workerNonce_eq]
  exact List.mem_map.mpr ⟨_, List.mem_range.mpr (share_lt ht hi), rfl⟩

/-! ## One thread -/

theorem searchLoop_found {cancel : Nat → Bool} {nonce : UInt64} : ∀ {remaining i : Nat},
    searchLoop meets cancel startNonce remaining i = .found nonce →
      meets nonce = true ∧ ∃ k < remaining, nonce = startNonce + UInt64.ofNat (i + k) := by
  intro remaining
  induction remaining with
  | zero => intro i h; cases h
  | succ remaining ih =>
    intro i h
    rw [searchLoop] at h
    split at h
    · cases h
    · by_cases hmeets : meets (startNonce + UInt64.ofNat i) = true
      · rw [if_pos hmeets] at h
        cases h
        exact ⟨hmeets, 0, by omega, rfl⟩
      · rw [if_neg hmeets] at h
        obtain ⟨hm, k, hk, rfl⟩ := ih h
        exact ⟨hm, k + 1, by omega, by rw [Nat.add_right_comm, Nat.add_assoc]⟩

theorem searchLoop_exhausted {cancel : Nat → Bool} : ∀ {remaining i : Nat},
    searchLoop meets cancel startNonce remaining i = .exhausted →
      ∀ k < remaining, meets (startNonce + UInt64.ofNat (i + k)) = false := by
  intro remaining
  induction remaining with
  | zero => intro i _ k hk; omega
  | succ remaining ih =>
    intro i h k hk
    rw [searchLoop] at h
    split at h
    · cases h
    · by_cases hmeets : meets (startNonce + UInt64.ofNat i) = true
      · rw [if_pos hmeets] at h
        cases h
      · rw [if_neg hmeets] at h
        rcases k with _ | k
        · simpa using hmeets
        · have := ih h k (by omega)
          rwa [Nat.add_right_comm, Nat.add_assoc] at this

/-! ## Workers -/

@[simp] theorem Search.set_cancel (s : Search) (t : Nat) (w : Worker) : (s.set t w).cancel = s.cancel := rfl
@[simp] theorem Search.set_found (s : Search) (t : Nat) (w : Worker) : (s.set t w).found = s.found := rfl
@[simp] theorem Search.set_solvedNonce (s : Search) (t : Nat) (w : Worker) : (s.set t w).solvedNonce = s.solvedNonce := rfl

/-- What holds of the other workers and of the new one holds of all. -/
theorem Search.forall_set {P : Nat → Worker → Prop} {s : Search} {t : Nat} {w : Worker} (h : ∀ t, P t (s.workers t))
    (hw : P t w) : ∀ t', P t' ((s.set t w).workers t') := by
  intro t'
  by_cases ht : t' = t
  · subst ht
    simpa [set] using hw
  · simpa [set, ht] using h t'

/-- What a worker that is at `w` has passed by misses the target. -/
structure Passed (meets : UInt64 → Bool) (startNonce maxIterations : UInt64) (n : Nat) (found : Bool) (t : Nat) (w : Worker) :
    Prop where
  range : w.next ≤ shareSize maxIterations.toNat n t
  missed : ∀ i < w.next, meets (workerNonce startNonce maxIterations n t i) = false
  done : w.status = .done → w.next = shareSize maxIterations.toNat n t
  solved : w.status = .solved → found = true

structure Searched (meets : UInt64 → Bool) (startNonce maxIterations : UInt64) (n : Nat) (s : Search) : Prop where
  workers : ∀ t, Passed meets startNonce maxIterations n s.found t (s.workers t)
  solution : s.found = true → meets s.solvedNonce = true ∧ s.solvedNonce ∈ rangeNonces startNonce maxIterations

theorem searched_start (cancel : Bool) : Searched meets startNonce maxIterations n (.start cancel) := by
  refine ⟨fun t => ⟨Nat.zero_le _, fun i hi => absurd hi (Nat.not_lt_zero i), ?_, ?_⟩, ?_⟩
  · intro h; cases h
  · intro h; cases h
  · intro h; cases h

theorem searched_step {a b : Search} (h : Searched meets startNonce maxIterations n a)
    (hs : SearchStep meets startNonce maxIterations n a b) : Searched meets startNonce maxIterations n b := by
  cases hs with
  | flag b => exact ⟨h.workers, h.solution⟩
  | leave t =>
    have ht := h.workers t
    refine ⟨Search.forall_set h.workers ⟨ht.range, ht.missed, ?_, ?_⟩, h.solution⟩
    · intro hdone; cases hdone
    · intro hsolved; cases hsolved
  | miss t hn hrunning hnext _ hmiss =>
    have ht := h.workers t
    refine ⟨Search.forall_set h.workers ⟨hnext, ?_, ?_, ?_⟩, h.solution⟩
    · intro i hi
      rcases Nat.lt_succ_iff_lt_or_eq.mp hi with hi | rfl
      · exact ht.missed i hi
      · exact hmiss
    · intro hdone; simp [hrunning] at hdone
    · intro hsolved; simp [hrunning] at hsolved
  | hit t hn hrunning hnext _ hhit =>
    have hfound : ∀ t, Passed meets startNonce maxIterations n true t (a.workers t) := by
      intro t
      have ht := h.workers t
      exact ⟨ht.range, ht.missed, ht.done, fun _ => rfl⟩
    have ht := h.workers t
    refine ⟨Search.forall_set hfound ⟨ht.range, ht.missed, ?_, fun _ => rfl⟩, fun _ => ⟨hhit, workerNonce_mem hn hnext⟩⟩
    intro hdone; cases hdone
  | finish t hn hrunning hnext =>
    have ht := h.workers t
    refine ⟨Search.forall_set h.workers ⟨ht.range, ht.missed, fun _ => hnext, ?_⟩, h.solution⟩
    intro hsolved; cases hsolved

theorem searched {allowed : Search → Search → Prop} {cancel : Bool} {s : Search}
    (hrun : Relation.ReflTransGen (fun a b => SearchStep meets startNonce maxIterations n a b ∧ allowed a b) (.start cancel) s) :
    Searched meets startNonce maxIterations n s := by
  induction hrun with
  | refl => exact searched_start cancel
  | tail _ hs ih => exact searched_step ih hs.1

/-- Where the flag stays, a worker that left left for a flag that is still set. -/
def LeftByFlag (s : Search) : Prop := ∀ t, (s.workers t).status = .left → s.cancel = true ∨ s.found = true

theorem leftByFlag_step {a b : Search} (h : LeftByFlag a) (hs : SearchStep meets startNonce maxIterations n a b)
    (hkept : KeepsFlag a b) : LeftByFlag b := by
  cases hs with
  | flag b =>
    intro t ht
    rcases h t ht with hcancel | hfound
    · exact .inl (hkept hcancel)
    · exact .inr hfound
  | leave t _ _ _ _ hflag =>
    refine Search.forall_set (P := fun _ w => w.status = .left → a.cancel = true ∨ a.found = true) h ?_
    intro _
    simpa using hflag
  | miss t =>
    exact Search.forall_set (P := fun _ w => w.status = .left → a.cancel = true ∨ a.found = true) h (h t)
  | hit t => exact fun t _ => .inr rfl
  | finish t =>
    refine Search.forall_set (P := fun _ w => w.status = .left → a.cancel = true ∨ a.found = true) h ?_
    intro hleft; cases hleft

theorem leftByFlag {cancel : Bool} {s : Search}
    (hrun : Relation.ReflTransGen (fun a b => SearchStep meets startNonce maxIterations n a b ∧ KeepsFlag a b)
      (.start cancel) s) : LeftByFlag s := by
  induction hrun with
  | refl => intro t ht; cases ht
  | tail _ hs ih => exact leftByFlag_step ih hs.1 hs.2

/-- All workers have returned and neither flag is set: every nonce was tried. -/
theorem exhausted_misses {s : Search} (hn : 0 < n) (hs : Searched meets startNonce maxIterations n s) (hleft : LeftByFlag s)
    (hjoined : s.Joined n) (hresult : s.result = .exhausted) :
    ∀ nonce ∈ rangeNonces startNonce maxIterations, meets nonce = false := by
  have hflags : s.cancel = false ∧ s.found = false := by
    unfold Search.result at hresult
    cases hcancel : s.cancel <;> cases hfound : s.found <;> simp [hcancel, hfound] at hresult ⊢
  intro nonce hnonce
  obtain ⟨k, hk, rfl⟩ := List.mem_map.mp hnonce
  obtain ⟨t, ht, i, hi, rfl⟩ := exists_share hn (List.mem_range.mp hk)
  have hw := hs.workers t
  have hdone : (s.workers t).status = .done := by
    cases hstatus : (s.workers t).status with
    | running => exact absurd hstatus (hjoined t ht)
    | done => rfl
    | solved =>
      have := hw.solved hstatus
      rw [hflags.2] at this
      cases this
    | left =>
      rcases hleft t hstatus with hcancel | hfound
      · rw [hflags.1] at hcancel
        cases hcancel
      · rw [hflags.2] at hfound
        cases hfound
  have := hw.missed i (by rw [hw.done hdone]; exact hi)
  rwa [workerNonce_eq] at this

end

/-! ## What a search returns -/

section
variable {H : Hasher} {availableParallelism : Option Nat} {t : BlockTemplate} {startNonce maxIterations : UInt64}

theorem meets_iff (nonce : UInt64) :
    t.target.isMetBy (H (patchNonce (t.buildHeader H startNonce).canonicalBytes nonce)) = true ↔
      verifyPow H (t.buildHeader H nonce) t.target = .ok () := by
  rw [patchNonce_header, verifyPow]
  show t.target.isMetBy ((t.buildHeader H nonce).hash H) = true ↔ _
  by_cases h : t.target.isMetBy ((t.buildHeader H nonce).hash H) = true <;> simp [h]

theorem answer_ok {result : LoopResult} {header : BlockHeader}
    (h : Except.ok header = t.answer H startNonce maxIterations result) :
    ∃ nonce, result = .found nonce ∧ header = t.buildHeader H nonce := by
  cases result with
  | cancelled => cases h
  | found nonce => cases h; exact ⟨nonce, rfl, rfl⟩
  | exhausted => cases h

theorem answer_exhausted {result : LoopResult} {height count : UInt64}
    (h : Except.error (.exhaustedNonce height count) = t.answer H startNonce maxIterations result) :
    result = .exhausted := by
  cases result with
  | cancelled => cases h
  | found nonce => cases h
  | exhausted => rfl

/-- A returned header is the template's with a nonce of the range that meets the target. -/
theorem runPowSearch_ok {allowed : Search → Search → Prop} {header : BlockHeader}
    (h : t.RunPowSearch H allowed availableParallelism startNonce maxIterations (.ok header)) :
    ∃ nonce ∈ rangeNonces startNonce maxIterations, header = t.buildHeader H nonce ∧
      verifyPow H header t.target = .ok () := by
  simp only [BlockTemplate.RunPowSearch, BlockHeader.toCanonicalBytes] at h
  split at h
  · obtain ⟨cancel, hresult⟩ := h
    obtain ⟨nonce, hfound, rfl⟩ := answer_ok hresult
    obtain ⟨hmeets, k, hk, rfl⟩ := searchLoop_found hfound
    rw [Nat.zero_add] at hmeets ⊢
    exact ⟨_, List.mem_map.mpr ⟨k, List.mem_range.mpr hk, rfl⟩, rfl, (meets_iff _).mp hmeets⟩
  · obtain ⟨cancel, s, hrun, -, hresult⟩ := h
    obtain ⟨nonce, hfound, rfl⟩ := answer_ok hresult
    have hs := searched hrun
    unfold Search.result at hfound
    cases hc : s.cancel <;> cases hf : s.found <;> simp [hc, hf] at hfound
    obtain ⟨hmeets, hrange⟩ := hs.solution hf
    rw [hfound] at hmeets hrange
    exact ⟨nonce, hrange, rfl, (meets_iff _).mp hmeets⟩

/-- An exhausted search whose flag was never cleared has tried every nonce. -/
theorem runPowSearch_exhausted {height count : UInt64}
    (h : t.RunPowSearch H KeepsFlag availableParallelism startNonce maxIterations
      (.error (.exhaustedNonce height count))) :
    ∀ nonce ∈ rangeNonces startNonce maxIterations, verifyPow H (t.buildHeader H nonce) t.target ≠ .ok () := by
  simp only [BlockTemplate.RunPowSearch, BlockHeader.toCanonicalBytes] at h
  intro nonce hnonce hpow
  have hmeets := (@meets_iff H t startNonce nonce).mpr hpow
  split at h
  · obtain ⟨cancel, hresult⟩ := h
    obtain ⟨k, hk, rfl⟩ := List.mem_map.mp hnonce
    have hmiss := searchLoop_exhausted (answer_exhausted hresult) k (List.mem_range.mp hk)
    rw [Nat.zero_add] at hmiss
    rw [hmeets] at hmiss
    cases hmiss
  · rename_i hlong
    obtain ⟨cancel, s, hrun, hjoined, hresult⟩ := h
    have hn : 0 < numThreads availableParallelism := by
      have := (not_or.mp hlong).2
      omega
    have hmiss := exhausted_misses hn (searched hrun) (leftByFlag hrun) hjoined (answer_exhausted hresult) nonce hnonce
    rw [hmeets] at hmiss
    cases hmiss

/-- For every template, range, machine, flag and order of steps: a returned header is the
    template's but for its nonce, which is of the range and meets the target; the workers'
    nonces are the range, each once, for every number of workers; and where the flag is not
    cleared, an exhausted range has no solution. -/
theorem pow_search_kept (H : Hasher) (availableParallelism : Option Nat) (t : BlockTemplate)
    (startNonce maxIterations : UInt64) :
    (∀ (allowed : Search → Search → Prop) (header : BlockHeader),
        t.RunPowSearch H allowed availableParallelism startNonce maxIterations (.ok header) →
          ∃ nonce ∈ rangeNonces startNonce maxIterations, header = t.buildHeader H nonce ∧
            verifyPow H header t.target = .ok ()) ∧
      (∀ n : Nat, 0 < n → ((List.range n).flatMap fun worker => (List.range (shareSize maxIterations.toNat n worker)).map
          (workerNonce startNonce maxIterations n worker)) = rangeNonces startNonce maxIterations) ∧
      (rangeNonces startNonce maxIterations).Nodup ∧
      ∀ height count : UInt64, t.RunPowSearch H KeepsFlag availableParallelism startNonce maxIterations
          (.error (.exhaustedNonce height count)) →
        ∀ nonce ∈ rangeNonces startNonce maxIterations, verifyPow H (t.buildHeader H nonce) t.target ≠ .ok () :=
  ⟨fun _ _ h => runPowSearch_ok h, fun _ hn => nonces_shared startNonce maxIterations hn,
    rangeNonces_nodup startNonce maxIterations, fun _ _ h => runPowSearch_exhausted h⟩

end

/-! ### A flag that is cleared in time -/

/-- A template of the easiest target, without transactions. -/
def easyTemplate : BlockTemplate := ⟨Hash256.zero, 1, 0x2100ffff, [], Hash256.zero, 60⟩

/-- Two workers see the flag at their first nonces and leave; then the flag is cleared. -/
def leftSearch : Search :=
  (((Search.start true).set 0 ⟨0, .left⟩).set 1 ⟨0, .left⟩)

theorem leftSearch_run (meets : UInt64 → Bool) : Relation.ReflTransGen
    (fun a b => SearchStep meets 0 100000 2 a b ∧ True) (.start true) { leftSearch with cancel := false } := by
  refine .tail (.tail (.tail .refl ⟨.leave _ 0 ?_ rfl ?_ rfl rfl, trivial⟩) ⟨.leave _ 1 ?_ rfl ?_ rfl rfl, trivial⟩)
    ⟨.flag _ false, trivial⟩
  · decide
  · decide
  · decide
  · decide

/-- The search is exhausted, though its first nonce is a solution. -/
theorem cleared_flag_exhausts :
    easyTemplate.RunPowSearch Blake3.digest (fun _ _ => True) (some 2) 0 100000 (.error (.exhaustedNonce 1 100000)) ∧
      0 ∈ rangeNonces 0 100000 ∧
      verifyPow Blake3.digest (easyTemplate.buildHeader Blake3.digest 0) easyTemplate.target = .ok () := by
  refine ⟨?_, ?_, by decide +kernel⟩
  · have hlong : ¬((100000 : UInt64) < 100000 ∨ numThreads (some 2) ≤ 1) := by decide
    simp only [BlockTemplate.RunPowSearch, BlockHeader.toCanonicalBytes, if_neg hlong]
    refine ⟨true, _, leftSearch_run _, ?_, rfl⟩
    intro worker hworker
    have hn : numThreads (some 2) = 2 := rfl
    rw [hn] at hworker
    rcases worker with _ | _ | worker
    · decide
    · decide
    · omega
  · exact List.mem_map.mpr ⟨0, List.mem_range.mpr (by decide), rfl⟩

end Scytale

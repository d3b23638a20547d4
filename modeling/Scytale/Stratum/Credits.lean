/-
  Scytale.Stratum.Credits — which shares the pool server credits, over whole runs
  (crates/scytale-stratum/src/server.rs).

  A run interleaves the steps of any number of connections with the broadcaster's. What it
  has credited is kept beside the server: the header of each share, as its job, extranonces,
  time and nonce.
  - `shares_credited_once`: no header is credited twice in a run in which a submission is
    settled only where all credits for its header were given to the same connection, while
    its job has been among the sixteen last published.
  - `share_credited_twice`: two connections are credited for one header.
-/
import Scytale.Stratum.Server

namespace Scytale

open Lib

/-- The header a share denotes. -/
structure ShareHeader where
  job : StratumJob
  extranonce1 : Extranonce
  extranonce2 : Extranonce
  timestamp : UInt64
  nonce : UInt64
  deriving DecidableEq

structure Credit where
  connection : Nat
  header : ShareHeader
  /-- How many jobs had been published. -/
  published : Nat
  deriving DecidableEq

/-- The share a credit was given for, as its session remembers it. -/
def Credit.key (a : Credit) : ShareKey := (a.header.job.jobId, a.header.nonce, extranonceNum a.header.extranonce2)

/-- A server with the identifiers of the jobs it has published and the credits it has given. -/
structure CreditedServer (D : Type) where
  server : StratumServer D
  published : List String
  credits : List Credit

inductive ServerOp where
  | broadcastJob (job : StratumJob)
  | connect
  | disconnect (k : Nat)
  | receive (k : Nat) (req : StratumRequest)
  | settle (k : Nat)

namespace CreditedServer

variable {D : Type}

def new (defaultDifficulty : D) : CreditedServer D := ⟨.new defaultDifficulty, [], []⟩

def header (session : WorkerSession D) (x : Submission) : ShareHeader :=
  ⟨x.job, session.extranonce1, x.extranonce2, x.timestamp, x.nonce⟩

/-- The credit a connection is given when it settles. -/
def credit (H : Hasher) (shareTarget : D → Nat) (s : CreditedServer D) (k : Nat) : List Credit :=
  match s.server.connections k with
  | some ⟨session, some (_, x)⟩ =>
    if (settleSubmission H shareTarget session x).2.1.isOk then [⟨k, header session x, s.published.length⟩] else []
  | _ => []

def step (H : Hasher) (shareTarget : D → Nat) (s : CreditedServer D) : ServerOp → CreditedServer D
  | .broadcastJob job => { s with server := s.server.broadcastJob job, published := s.published ++ [job.jobId] }
  | .connect => { s with server := s.server.connect }
  | .disconnect k => { s with server := s.server.disconnect k }
  | .receive k req => { s with server := (s.server.receive k req).1 }
  | .settle k => { s with server := (s.server.settle H shareTarget k).1, credits := s.credits ++ s.credit H shareTarget k }

/-- The last sixteen. -/
def lastIds (ids : List String) : List String := ids.drop (ids.length - maxActiveJobs)

/-- The identifier has been among the last sixteen since `n` jobs were published. -/
def StaysPublished (s : CreditedServer D) (id : String) (n : Nat) : Prop :=
  ∀ m, n ≤ m → m ≤ s.published.length → id ∈ lastIds (s.published.take m)

/-- Whatever was credited for the header of the submission that is settled was credited to the
    same connection, and its job has not been dropped since. -/
def SettlesOwn (s : CreditedServer D) : ServerOp → Prop
  | .settle k => ∀ session id x, s.server.connections k = some ⟨session, some (id, x)⟩ → ∀ a ∈ s.credits,
      a.header = header session x → a.connection = k ∧ s.StaysPublished x.jobId a.published
  | _ => True

end CreditedServer

/-- The servers of all runs in which each operation is allowed. -/
inductive ServerRun (H : Hasher) {D : Type} (shareTarget : D → Nat) (allowed : CreditedServer D → ServerOp → Prop) :
    CreditedServer D → Prop where
  | start (defaultDifficulty : D) : ServerRun H shareTarget allowed (.new defaultDifficulty)
  | step {s : CreditedServer D} (h : ServerRun H shareTarget allowed s) (op : ServerOp) (hop : allowed s op) :
      ServerRun H shareTarget allowed (s.step H shareTarget op)

namespace CreditedServer

variable {H : Hasher} {D : Type} {shareTarget : D → Nat}

/-! ## What a session remembers -/

/-- The identifiers of the jobs are in step with the published ones, and every session
    remembers the shares it was credited for whose job was not dropped since. -/
structure Remembers (s : CreditedServer D) : Prop where
  order : s.server.jobOrder = lastIds s.published
  jobs : ∀ (id : String) (job : StratumJob), s.server.jobs[id]? = some job → job.jobId = id
  inFlight : ∀ k session id x, s.server.connections k = some ⟨session, some (id, x)⟩ → x.job.jobId = x.jobId
  opened : ∀ k c, s.server.connections k = some c → k < s.server.opened
  past : ∀ a ∈ s.credits, a.published ≤ s.published.length ∧ a.connection < s.server.opened
  kept : ∀ k c, s.server.connections k = some c → ∀ a ∈ s.credits, a.connection = k →
    s.StaysPublished a.header.job.jobId a.published → a.key ∈ c.session.submittedShares

theorem remembers_new (defaultDifficulty : D) : Remembers (.new defaultDifficulty) where
  order := rfl
  jobs _ _ h := by simp [new, StratumServer.new] at h
  inFlight _ _ _ _ h := by simp [new, StratumServer.new] at h
  opened _ _ h := by simp [new, StratumServer.new] at h
  past _ h := by simp [new] at h
  kept _ _ h := by simp [new, StratumServer.new] at h

/-- The last sixteen of one more are the last sixteen and it, without the oldest. -/
theorem lastIds_snoc (ids : List String) (id : String) :
    (lastIds ids ++ [id]).drop ((lastIds ids ++ [id]).length - maxActiveJobs) = lastIds (ids ++ [id]) := by
  simp only [lastIds, List.length_append, List.length_drop, List.length_cons, List.length_nil, maxActiveJobs]
  by_cases h : ids.length < 16
  · have h0 : ids.length - 16 = 0 := by omega
    have h1 : ids.length + 1 - 16 = 0 := by omega
    simp [h0, h1]
  · have h1 : ids.length + 1 - 16 = ids.length - 16 + 1 := by omega
    have h2 : ids.length - (ids.length - 16) + (0 + 1) - 16 = 1 := by omega
    rw [h2, Nat.zero_add, h1, List.drop_append_of_le_length (by rw [List.length_drop]; omega),
      List.drop_append_of_le_length (by omega), List.drop_drop]

/-- An identifier that stays published through one more was, and is among the last sixteen. -/
theorem StaysPublished.of_snoc {s : CreditedServer D} {id job : String} {n : Nat} {server : StratumServer D}
    (h : StaysPublished ⟨server, s.published ++ [job], s.credits⟩ id n) (hn : n ≤ s.published.length) :
    s.StaysPublished id n ∧ id ∈ lastIds (s.published ++ [job]) := by
  refine ⟨fun m hm hl => ?_, ?_⟩
  · have := h m hm (by simp; omega)
    rwa [List.take_append_of_le_length hl] at this
  · have := h (s.published.length + 1) (by omega) (by simp)
    rwa [List.take_of_length_le (by simp)] at this

theorem Remembers.broadcastJob {s : CreditedServer D} (h : Remembers s) (job : StratumJob) :
    Remembers (s.step H shareTarget (.broadcastJob job)) where
  order := by
    simp only [step, StratumServer.broadcastJob, StratumServer.popOldJobs_order, h.order]
    exact lastIds_snoc _ _
  jobs id j hj := by
    have hj := StratumServer.popOldJobs_get _ hj
    rw [Table.get_insert] at hj
    by_cases e : job.jobId = id
    · rw [if_pos e] at hj
      cases hj
      exact e
    · rw [if_neg e] at hj
      exact h.jobs id j hj
  inFlight k session id x hk := by
    obtain ⟨c, hc, he⟩ := Option.map_eq_some_iff.mp hk
    have hfl : c.inFlight = some (id, x) := by
      by_cases hr : s.server.sessions[c.session.sessionId]? = some k
      · rw [if_pos hr] at he
        exact (congrArg Connection.inFlight he)
      · rw [if_neg hr] at he
        exact congrArg Connection.inFlight he
    obtain ⟨session₀, fl⟩ := c
    cases hfl
    exact h.inFlight k session₀ id x hc
  opened k c hk := by
    obtain ⟨c₀, hc, -⟩ := Option.map_eq_some_iff.mp hk
    exact h.opened k c₀ hc
  past a ha := by
    have := h.past a ha
    exact ⟨by simp [step]; omega, this.2⟩
  kept k c hk a ha hak hst := by
    obtain ⟨c₀, hc, he⟩ := Option.map_eq_some_iff.mp hk
    obtain ⟨hst, hlast⟩ := hst.of_snoc (h.past a ha).1
    have hmem := h.kept k c₀ hc a ha hak hst
    by_cases hr : s.server.sessions[c₀.session.sessionId]? = some k
    · rw [if_pos hr] at he
      subst he
      rw [WorkerSession.mem_pruneSharesExcept, StratumServer.popOldJobs_order, h.order, lastIds_snoc]
      exact ⟨hmem, hlast⟩
    · rw [if_neg hr] at he
      subst he
      exact hmem

/-- An operation that leaves jobs and credits, opens no number twice and lets no session forget
    keeps what is remembered. -/
theorem Remembers.of_connections {s : CreditedServer D} (h : Remembers s) {server : StratumServer D}
    (horder : server.jobOrder = s.server.jobOrder) (hjobs : server.jobs = s.server.jobs)
    (hopened : s.server.opened ≤ server.opened)
    (hconn : ∀ k c, server.connections k = some c → k < server.opened ∧
      (∀ id x, c.inFlight = some (id, x) → x.job.jobId = x.jobId) ∧
      (k < s.server.opened → ∃ c₀, s.server.connections k = some c₀ ∧
        ∀ key ∈ c₀.session.submittedShares, key ∈ c.session.submittedShares)) :
    Remembers { s with server := server } where
  order := horder.trans h.order
  jobs id job hj := h.jobs id job (hjobs ▸ hj)
  inFlight k session id x hk := (hconn k _ hk).2.1 id x rfl
  opened k c hk := (hconn k c hk).1
  past a ha := ⟨(h.past a ha).1, by have := (h.past a ha).2; simp; omega⟩
  kept k c hk a ha hak hst := by
    obtain ⟨c₀, hc₀, hsub⟩ := (hconn k c hk).2.2 (hak ▸ (h.past a ha).2)
    exact hsub _ (h.kept k c₀ hc₀ a ha hak hst)

theorem Remembers.connect {s : CreditedServer D} (h : Remembers s) : Remembers (s.step H shareTarget .connect) := by
  simp only [step, StratumServer.connect]
  by_cases hfull : s.server.sessions.size ≥ maxWorkerSessions
  · simpa only [if_pos hfull] using h
  · simp only [if_neg hfull]
    refine h.of_connections rfl rfl (Nat.le_succ _) fun k c hk => ?_
    by_cases e : k = s.server.opened
    · subst e
      simp only [Function.update_self, Option.some.injEq] at hk
      subst hk
      exact ⟨Nat.lt_succ_self _, fun _ _ hf => by simp at hf, fun hlt => absurd hlt (Nat.lt_irrefl _)⟩
    · simp only [Function.update_of_ne e] at hk
      have hlt := h.opened k c hk
      exact ⟨by simp; omega, fun id x hf => h.inFlight k c.session id x (by rw [hk, ← hf]), fun _ => ⟨c, hk, fun _ hm => hm⟩⟩

theorem Remembers.disconnect {s : CreditedServer D} (h : Remembers s) (k : Nat) :
    Remembers (s.step H shareTarget (.disconnect k)) := by
  simp only [step, StratumServer.disconnect]
  cases hk : s.server.connections k with
  | none => exact h
  | some c =>
    refine h.of_connections rfl rfl (Nat.le_refl _) fun j c' hj => ?_
    by_cases e : j = k
    · simp [e] at hj
    · simp only [Function.update_of_ne e] at hj
      exact ⟨h.opened j c' hj, fun id x hf => h.inFlight j c'.session id x (by rw [hj, ← hf]), fun _ => ⟨c', hj, fun _ hm => hm⟩⟩

/-- One connection is replaced by one whose session has forgotten nothing. -/
theorem Remembers.setConnection {s : CreditedServer D} (h : Remembers s) {k : Nat} {c c₀ : Connection D}
    (hk : s.server.connections k = some c₀) (hkeep : ∀ key ∈ c₀.session.submittedShares, key ∈ c.session.submittedShares)
    (hfl : ∀ id x, c.inFlight = some (id, x) → x.job.jobId = x.jobId) (found : List FoundBlock) :
    Remembers { s with server := { s.server.setConnection k c with blockCandidates := found } } := by
  refine h.of_connections rfl rfl (Nat.le_refl _) fun j c' hj => ?_
  by_cases e : j = k
  · subst e
    simp only [StratumServer.setConnection_same, Option.some.injEq] at hj
    subst hj
    exact ⟨h.opened j c₀ hk, hfl, fun _ => ⟨c₀, hk, hkeep⟩⟩
  · simp only [StratumServer.setConnection_ne _ _ e] at hj
    exact ⟨h.opened j c' hj, fun id x hf => h.inFlight j c'.session id x (by rw [hj, ← hf]), fun _ => ⟨c', hj, fun _ hm => hm⟩⟩

theorem Remembers.receive {s : CreditedServer D} (h : Remembers s) (k : Nat) (req : StratumRequest) :
    Remembers (s.step H shareTarget (.receive k req)) := by
  simp only [step, StratumServer.receive]
  cases hk : s.server.connections k with
  | none => exact h
  | some c =>
    obtain ⟨session, fl⟩ := c
    cases fl with
    | some p => exact h
    | none =>
      simp only
      by_cases hm : req.method = "mining.submit"
      · simp only [if_pos hm]
        cases hx : readSubmission s.server.jobs req.params with
        | error e => exact h.setConnection hk (by simp) (by simp) _
        | ok x =>
          have hfl : ∀ id y, (some (req.id, x)) = some (id, y) → y.job.jobId = y.jobId := by
            intro id y hy
            cases hy
            exact h.jobs _ _ (readSubmission_ok hx)
          exact h.setConnection (c := ⟨session, some (req.id, x)⟩) hk (fun _ hkey => hkey) hfl _
      · simp only [if_neg hm]
        exact h.setConnection hk (by simp) (by simp) _

/-- What a connection is credited for when it settles is what it had in flight. -/
theorem mem_credit {s : CreditedServer D} {k : Nat} {a : Credit} (h : a ∈ s.credit H shareTarget k) :
    ∃ session id x, s.server.connections k = some ⟨session, some (id, x)⟩ ∧
      (settleSubmission H shareTarget session x).2.1 = .ok () ∧
      s.credit H shareTarget k = [⟨k, header session x, s.published.length⟩] := by
  unfold credit at h ⊢
  split at h
  · rename_i session id x hk
    by_cases hok : (settleSubmission H shareTarget session x).2.1.isOk
    · refine ⟨session, id, x, hk, ?_, by simp [hok]⟩
      cases hr : (settleSubmission H shareTarget session x).2.1 with
      | error e => rw [hr] at hok; cases hok
      | ok u => rfl
    · simp [hok] at h
  · cases h

theorem Remembers.settle {s : CreditedServer D} (h : Remembers s) (k : Nat) :
    Remembers (s.step H shareTarget (.settle k)) := by
  -- first the server, then the credit
  have hserver : Remembers { s with server := (s.server.settle H shareTarget k).1 } := by
    unfold StratumServer.settle
    split
    · rename_i session id x hk
      exact h.setConnection hk (fun _ hkey => settleSubmission_keeps hkey) (by simp) _
    · exact h
  refine ⟨hserver.order, hserver.jobs, hserver.inFlight, hserver.opened, fun a ha => ?_, fun j c hj a ha haj hst => ?_⟩
  · rcases List.mem_append.mp ha with ha | ha
    · exact hserver.past a ha
    · obtain ⟨session, id, x, hk, -, he⟩ := mem_credit ha
      rw [he, List.mem_singleton] at ha
      subst ha
      refine ⟨Nat.le_refl _, ?_⟩
      have hlt := h.opened k _ hk
      simp only [CreditedServer.step, StratumServer.settle, hk]
      exact hlt
  · rcases List.mem_append.mp ha with ha | ha
    · exact hserver.kept j c hj a ha haj hst
    · obtain ⟨session, id, x, hk, hok, he⟩ := mem_credit ha
      rw [he, List.mem_singleton] at ha
      subst ha
      subst haj
      have hid := h.inFlight _ session id x hk
      simp only [step, StratumServer.settle, hk, StratumServer.setConnection_same, Option.some.injEq] at hj
      subst hj
      have := (settleSubmission_credits hok).2
      rwa [Submission.key, ← hid] at this

theorem Remembers.step {s : CreditedServer D} (h : Remembers s) (op : ServerOp) : Remembers (s.step H shareTarget op) := by
  cases op with
  | broadcastJob job => exact h.broadcastJob job
  | connect => exact h.connect
  | disconnect k => exact h.disconnect k
  | receive k req => exact h.receive k req
  | settle k => exact h.settle k

/-! ## No header twice -/

theorem credited_once_step {s : CreditedServer D} (h : Remembers s) (hnd : (s.credits.map Credit.header).Nodup) {op : ServerOp}
    (hop : s.SettlesOwn op) : ((s.step H shareTarget op).credits.map Credit.header).Nodup := by
  cases op with
  | broadcastJob | connect | disconnect | receive => exact hnd
  | settle k =>
    simp only [CreditedServer.step, List.map_append]
    cases hc : s.credit H shareTarget k with
    | nil => simpa using hnd
    | cons a rest =>
      obtain ⟨session, id, x, hk, hok, he⟩ := mem_credit (a := a) (by rw [hc]; exact List.mem_cons_self)
      rw [← hc, he]
      refine List.nodup_append.mpr ⟨hnd, List.nodup_singleton _, fun y hy z hz e => ?_⟩
      obtain ⟨b, hb, rfl⟩ := List.mem_map.mp hy
      simp only [List.map_cons, List.map_nil, List.mem_singleton] at hz
      subst hz
      -- the earlier credit is this connection's own, and its session still knows the share
      obtain ⟨hbk, hst⟩ := hop session id x hk b hb e
      have hid := h.inFlight k session id x hk
      have hjob : b.header.job.jobId = x.jobId := by rw [e]; exact hid
      have hmem := h.kept k _ hk b hb hbk (hjob ▸ hst)
      have hkey : b.key = x.key := by rw [Credit.key, hjob, e]; rfl
      exact (settleSubmission_credits hok).1 (hkey ▸ hmem)

/-- However many connections there are and however their messages and the published jobs are
    interleaved, no header is credited twice, where a submission is settled only if all credits
    for its header are its connection's own and its job has not been dropped since. -/
theorem shares_credited_once {s : CreditedServer D} (h : ServerRun H shareTarget SettlesOwn s) :
    (s.credits.map Credit.header).Nodup := by
  suffices hs : Remembers s ∧ (s.credits.map Credit.header).Nodup from hs.2
  induction h with
  | start d => exact ⟨remembers_new d, List.nodup_nil⟩
  | step _ op hop ih => exact ⟨ih.1.step op, credited_once_step ih.1 ih.2 hop⟩

/-! ### Two connections -/

/-- The target of a whole difficulty: none at zero, else the floor target over it. -/
def wholeTarget (d : Nat) : Nat := if d = 0 then 2 ^ 256 - 1 else compactToTarget 0x1d00ffff / (d * 1000) * 1000

def sampleJob : StratumJob :=
  ⟨"1", Hash256.zero, [0x01], [0x02], [Hash256.zero], 1, 0x1d00ffff, Hash256.zero, 60, true⟩

def submitSample (nonce : String) : StratumRequest :=
  ⟨some (.number 3), "mining.submit",
    .array [.string "worker", .string "1", .string "00000001", .string "0x3c", .string nonce]⟩

/-- Two connections submit one share each for the same job. -/
def twoSubmits (nonce₁ nonce₂ : String) : List ServerOp :=
  [.connect, .connect, .broadcastJob sampleJob, .receive 0 (submitSample nonce₁), .receive 1 (submitSample nonce₂),
    .settle 0, .settle 1]

/-- No header is settled that was credited before. -/
def allFresh (H : Hasher) (shareTarget : D → Nat) : List ServerOp → CreditedServer D → Bool
  | [], _ => true
  | op :: ops, s =>
    (match op with
      | .settle k =>
        match s.server.connections k with
        | some ⟨session, some (_, x)⟩ => s.credits.all fun a => a.header ≠ header session x
        | _ => true
      | _ => true) && allFresh H shareTarget ops (s.step H shareTarget op)

def runOps (H : Hasher) (shareTarget : D → Nat) (s : CreditedServer D) (ops : List ServerOp) : CreditedServer D :=
  ops.foldl (CreditedServer.step H shareTarget) s

theorem run_ops {allowed : CreditedServer D → ServerOp → Prop} (hall : ∀ s op, allowed s op) (ops : List ServerOp) :
    ∀ {s : CreditedServer D}, ServerRun H shareTarget allowed s →
      ServerRun H shareTarget allowed (runOps H shareTarget s ops) := by
  induction ops with
  | nil => intro s h; exact h
  | cons op ops ih => intro s h; exact ih (h.step op (hall s op))

theorem run_fresh (ops : List ServerOp) : ∀ {s : CreditedServer D}, ServerRun H shareTarget SettlesOwn s →
    allFresh H shareTarget ops s = true → ServerRun H shareTarget SettlesOwn (runOps H shareTarget s ops) := by
  induction ops with
  | nil => intro s h _; exact h
  | cons op ops ih =>
    intro s h hf
    obtain ⟨hop, hf⟩ := Bool.and_eq_true_iff.mp hf
    refine ih (h.step op ?_) hf
    cases op with
    | broadcastJob | connect | disconnect | receive => trivial
    | settle k =>
      intro session id x hk a ha e
      simp only [hk, List.all_eq_true, decide_eq_true_eq] at hop
      exact absurd e (hop a ha)

set_option maxRecDepth 10000 in
/-- With two nonces both are credited. -/
theorem two_shares_credited :
    ((runOps Blake3.digest wholeTarget (.new 0) (twoSubmits "7" "8")).credits.map Credit.header).Nodup ∧
      (runOps Blake3.digest wholeTarget (.new 0) (twoSubmits "7" "8")).credits.length = 2 :=
  ⟨shares_credited_once (run_fresh _ (.start 0) (by decide +kernel)), by decide +kernel⟩

set_option maxRecDepth 10000 in
/-- With one nonce too, though the headers are the same. -/
theorem share_credited_twice : ∃ s : CreditedServer Nat, ServerRun Blake3.digest wholeTarget (fun _ _ => True) s ∧
    ¬ (s.credits.map Credit.header).Nodup :=
  ⟨runOps Blake3.digest wholeTarget (.new 0) (twoSubmits "7" "0x7"), run_ops (fun _ _ => trivial) _ (.start 0),
    by decide +kernel⟩

end CreditedServer

end Scytale

/-
  Scytale.Stratum.Server — the pool server (crates/scytale-stratum/src/server.rs).

  Each connection has its own session and works off its messages one by one; the broadcaster
  runs beside them. `mining.submit` looks its job up first and then checks, verifies and
  credits the share: between the two the broadcaster can publish jobs, so they are two steps
  (`readSubmission`, `settleSubmission`). The lines sent to the workers are left out.
  - `dispatchRpc_steps`: a message received, and settled with nothing in between where it is a
    submission, is what `dispatch_rpc` makes of it.
  - `popOldJobs_order`: `job_order` keeps the last sixteen identifiers.
  - `settleSubmission_credits`: a share is credited where it is new to the session and
    verifies, and what the session remembers then.
-/
import Scytale.Stratum.Shares

namespace Scytale

open Lib

def maxActiveJobs : Nat := 16

def maxWorkerSessions : Nat := 2048

/-! ## Messages -/

/-- A JSON value. Of the numbers only those that fit `u64` are read. -/
inductive JsonValue where
  | null
  | bool (b : Bool)
  | number (n : UInt64)
  | otherNumber (text : String)
  | string (s : String)
  | array (items : List JsonValue)
  | object (fields : List (String × JsonValue))

namespace JsonValue

def asStr : JsonValue → Option String
  | string s => some s
  | _ => none

def asU64 : JsonValue → Option UInt64
  | number n => some n
  | _ => none

def asArray : JsonValue → Option (List JsonValue)
  | array items => some items
  | _ => none

end JsonValue

structure StratumRequest where
  id : Option JsonValue
  method : String
  params : JsonValue

structure StratumResponse where
  id : Option JsonValue
  result : Option JsonValue
  error : Option StratumRpcError

def StratumResponse.success (id : Option JsonValue) (result : JsonValue) : StratumResponse := ⟨id, some result, none⟩

def StratumResponse.failure (id : Option JsonValue) (error : StratumRpcError) : StratumResponse := ⟨id, none, some error⟩

/-! ## Reading numbers -/

/-- The UTF-8 bytes of a text. -/
def textBytes (s : String) : Bytes := s.toUTF8.toList

/-- `trim_start_matches("0x")`: every leading occurrence goes. -/
def trim0x : Bytes → Bytes
  | 0x30 :: 0x78 :: rest => trim0x rest
  | s => s

/-- The digits of `u64::from_str_radix` in base 16. -/
def parseHexDigits : Nat → Bytes → Except String UInt64
  | n, [] => .ok (UInt64.ofNat n)
  | n, b :: rest =>
    match hexDigit b with
    | none => .error "invalid digit found in string"
    | some d =>
      if n * 16 + d.toNat < 2 ^ 64 then parseHexDigits (n * 16 + d.toNat) rest
      else .error "number too large to fit in target type"

/-- `u64::from_str_radix(s.trim_start_matches("0x"), 16)`. -/
def parseHexU64 (s : String) : Except String UInt64 :=
  match trim0x (textBytes s) with
  | [] => .error "cannot parse integer from empty string"
  | 0x2b :: b :: rest => parseHexDigits 0 (b :: rest)
  | bs => parseHexDigits 0 bs

/-- A byte as a character is shown by `{:?}`. -/
def debugByte (b : UInt8) : String :=
  let escaped :=
    if b = 0 then "\\0" else if b = 9 then "\\t" else if b = 10 then "\\n" else if b = 13 then "\\r"
    else if b = 0x27 then "\\'" else if b = 0x5c then "\\\\"
    else if b < 0x20 ∨ (0x7f ≤ b ∧ b ≤ 0xa0) ∨ b = 0xad then
      "\\u\x7b" ++ String.ofList (Nat.toDigits 16 b.toNat) ++ "\x7d"
    else String.singleton (Char.ofNat b.toNat)
  "'" ++ escaped ++ "'"

/-- The pairs of `hex::decode`, with the position of the first. -/
def decodeHexPairs : Nat → Bytes → Except String Bytes
  | pos, hi :: lo :: rest =>
    match hexDigit hi, hexDigit lo with
    | none, _ => .error ("Invalid character " ++ debugByte hi ++ " at position " ++ toString pos)
    | _, none => .error ("Invalid character " ++ debugByte lo ++ " at position " ++ toString (pos + 1))
    | some h, some l =>
      match decodeHexPairs (pos + 2) rest with
      | .error e => .error e
      | .ok out => .ok ((h <<< 4 ||| l) :: out)
  | _, _ => .ok []

/-- `hex::decode`. -/
def decodeHex (s : String) : Except String Bytes :=
  if (textBytes s).length % 2 ≠ 0 then .error "Odd number of digits" else decodeHexPairs 0 (textBytes s)

/-! ## Submissions -/

/-- What `mining.submit` has read of a message once its job is found. -/
structure Submission where
  workerName : String
  jobId : String
  job : StratumJob
  extranonce2 : Extranonce
  timestamp : UInt64
  nonce : UInt64

/-- A number or a hexadecimal text; the job's own time for anything else. -/
def parseTimestamp (curtime : UInt64) (value : JsonValue) : UInt64 :=
  match value.asStr, value.asU64 with
  | some s, _ => (parseHexU64 s).toOption.getD curtime
  | none, some n => n
  | none, none => curtime

def parseNonce (value : JsonValue) : Except StratumRpcError UInt64 :=
  match value.asStr, value.asU64 with
  | some s, _ => (parseHexU64 s).mapError fun text => .invalidParams ("invalid nonce hex: " ++ text)
  | none, some n => .ok n
  | none, none => .error (.invalidParams "nonce must be an integer or hex string")

/-- `mining.submit` up to the duplicate check. The flag says whether the session counts the
    refusal as an invalid share. -/
def readSubmission (jobs : Table String StratumJob) (params : JsonValue) : Except (Bool × StratumRpcError) Submission :=
  match params.asArray with
  | some (workerName :: jobId :: en2 :: time :: nonce :: _) =>
    let jobId := jobId.asStr.getD ""
    match jobs[jobId]? with
    | none => .error (true, .jobNotFound jobId)
    | some activeJob =>
      match decodeHex (en2.asStr.getD "") with
      | .error text => .error (true, .invalidParams ("invalid extranonce2 hex: " ++ text))
      | .ok en2 =>
        if h : en2.length = 4 then
          match parseNonce nonce with
          | .error e => .error (true, e)
          | .ok nonce =>
            .ok ⟨workerName.asStr.getD "", jobId, activeJob, ⟨en2, h⟩, parseTimestamp activeJob.curtime time, nonce⟩
        else .error (true, .invalidParams ("extranonce2 must be 4 bytes (8 hex chars), got " ++ toString en2.length ++ " bytes"))
  | _ => .error (false, .invalidParams "expected 5 parameters: [worker, job_id, extranonce2, curtime, nonce]")

/-- A candidate as it is handed to the node. -/
structure FoundBlock extends BlockFoundEvent where
  powHash : Hash256
  worker : String

/-- `BigEndian::read_u32(&en2_bytes) as u64`. -/
def extranonceNum (en2 : Extranonce) : UInt64 := UInt64.ofNat (byteVal en2.1)

def Submission.key (x : Submission) : ShareKey := (x.jobId, x.nonce, extranonceNum x.extranonce2)

section
variable (H : Hasher) {D : Type} (shareTarget : D → Nat)

/-- The rest of `mining.submit`: the session after it, what the worker is told, and the block
    it may have found. -/
def settleSubmission (session : WorkerSession D) (x : Submission) :
    WorkerSession D × Except StratumRpcError Unit × Option FoundBlock :=
  match session.checkAndRecordShare x.key with
  | (session, false) => (session.recordInvalidShare, .error .duplicateShare, none)
  | (session, true) =>
    match verifyWorkerShare H x.job session.extranonce1 x.extranonce2 x.timestamp x.nonce
        (shareTarget session.difficulty) with
    | .ok (.validShare _) => (session.recordValidShare, .ok (), none)
    | .ok (.blockCandidate header hash) =>
      (session.recordValidShare, .ok (), some ⟨⟨header, x.job, session.extranonce1, x.extranonce2⟩, hash, x.workerName⟩)
    | .error .highHash => (session.recordInvalidShare, .error .lowDifficultyShare, none)
    | .error err => (session.recordInvalidShare, .error (.ofStratumError err), none)

def answerSubmission (id : Option JsonValue) : Except StratumRpcError Unit → StratumResponse
  | .ok () => .success id (.bool true)
  | .error e => .failure id e

def WorkerSession.refuse (session : WorkerSession D) (counted : Bool) : WorkerSession D :=
  if counted then session.recordInvalidShare else session

/-- Everything but `mining.submit`. -/
def dispatchOther (session : WorkerSession D) (req : StratumRequest) : WorkerSession D × StratumResponse :=
  match req.method with
  | "mining.subscribe" =>
    (session, .success req.id (.array [.array [.array [.string "mining.set_difficulty", .string "sub_diff"],
      .array [.string "mining.notify", .string "sub_notify"]], .string (hexText session.extranonce1.1), .number 4]))
  | "mining.authorize" =>
    match req.params.asArray with
    | none => (session, .success req.id (.bool true))
    | some params =>
      let workerName := (params.head?.bind JsonValue.asStr).getD "anonymous"
      -- the address is what stands before the first dot
      let address := String.ofList (workerName.toList.takeWhile (· ≠ '.'))
      ({ session with authorizedWorker := some workerName, authorizedAddress := some address },
        .success req.id (.bool true))
  | "mining.extranonce.subscribe" => (session, .success req.id (.bool true))
  | "mining.get_transactions" => (session, .success req.id (.array []))
  | unknown => (session, .failure req.id (.methodNotFound unknown))

/-- A message worked off without a pause. -/
def dispatchRpc (jobs : Table String StratumJob) (session : WorkerSession D) (req : StratumRequest) :
    WorkerSession D × StratumResponse × Option FoundBlock :=
  if req.method = "mining.submit" then
    match readSubmission jobs req.params with
    | .error (counted, e) => (session.refuse counted, .failure req.id e, none)
    | .ok x =>
      match settleSubmission H shareTarget session x with
      | (session, answer, found) => (session, answerSubmission req.id answer, found)
  else
    match dispatchOther session req with
    | (session, response) => (session, response, none)

end

/-! ## The server -/

/-- A worker's connection: its session, and the submission it has read and not settled. -/
structure Connection (D : Type) where
  session : WorkerSession D
  inFlight : Option (Option JsonValue × Submission)

/-- A connection keeps its session for as long as it is open; `sessions` says under which
    identifier the session of which connection is registered. -/
structure StratumServer (D : Type) where
  connections : Nat → Option (Connection D)
  opened : Nat
  sessions : Table UInt64 Nat
  currentJob : Option StratumJob
  jobs : Table String StratumJob
  jobOrder : List String
  sessionCounter : UInt64
  defaultDifficulty : D
  blockCandidates : List FoundBlock

namespace StratumServer

variable {D : Type}

def new (defaultDifficulty : D) : StratumServer D := ⟨fun _ => none, 0, ∅, none, ∅, [], 1, defaultDifficulty, []⟩

/-- The loop that drops the oldest jobs. -/
def popOldJobs : List String → Table String StratumJob → List String × Table String StratumJob
  | [], jobs => ([], jobs)
  | old :: order, jobs =>
    if order.length + 1 > maxActiveJobs then popOldJobs order (jobs.erase old) else (old :: order, jobs)

/-- The registered sessions forget what belongs to other jobs. -/
def pruneSessions (srv : StratumServer D) (validJobIds : List String) : Nat → Option (Connection D) := fun k =>
  (srv.connections k).map fun c =>
    if srv.sessions[c.session.sessionId]? = some k then { c with session := c.session.pruneSharesExcept validJobIds } else c

def broadcastJob (srv : StratumServer D) (job : StratumJob) : StratumServer D :=
  let kept := popOldJobs (srv.jobOrder ++ [job.jobId]) (srv.jobs.insert job.jobId job)
  { srv with
    currentJob := some job
    jobs := kept.2
    jobOrder := kept.1
    connections := srv.pruneSessions kept.1 }

/-- The first lines of `handle_connection`: every session gets the same extranonce. -/
def connect (srv : StratumServer D) : StratumServer D :=
  if srv.sessions.size ≥ maxWorkerSessions then srv
  else
    let session := WorkerSession.new srv.sessionCounter ⟨[0, 0, 0, 0], zeroBytes_length⟩ srv.defaultDifficulty
    { srv with
      connections := Function.update srv.connections srv.opened (some ⟨session, none⟩)
      opened := srv.opened + 1
      sessions := srv.sessions.insert srv.sessionCounter srv.opened
      sessionCounter := srv.sessionCounter + 1 }

/-- The last lines of `handle_connection`. -/
def disconnect (srv : StratumServer D) (k : Nat) : StratumServer D :=
  match srv.connections k with
  | none => srv
  | some c =>
    { srv with
      connections := Function.update srv.connections k none
      sessions := srv.sessions.erase c.session.sessionId }

def setConnection (srv : StratumServer D) (k : Nat) (c : Connection D) : StratumServer D :=
  { srv with connections := Function.update srv.connections k (some c) }

/-- A connection reads a message, unless it is busy with one. A submission is looked up and
    waits to be settled. -/
def receive (srv : StratumServer D) (k : Nat) (req : StratumRequest) : StratumServer D × Option StratumResponse :=
  match srv.connections k with
  | none => (srv, none)
  | some ⟨_, some _⟩ => (srv, none)
  | some ⟨session, none⟩ =>
    if req.method = "mining.submit" then
      match readSubmission srv.jobs req.params with
      | .error (counted, e) => (srv.setConnection k ⟨session.refuse counted, none⟩, some (.failure req.id e))
      | .ok x => (srv.setConnection k ⟨session, some (req.id, x)⟩, none)
    else
      match dispatchOther session req with
      | (session, response) => (srv.setConnection k ⟨session, none⟩, some response)

/-- A connection settles the submission it has read. -/
def settle (H : Hasher) (shareTarget : D → Nat) (srv : StratumServer D) (k : Nat) :
    StratumServer D × Option StratumResponse :=
  match srv.connections k with
  | some ⟨session, some (id, x)⟩ =>
    match settleSubmission H shareTarget session x with
    | (session, answer, found) =>
      ({ srv.setConnection k ⟨session, none⟩ with blockCandidates := srv.blockCandidates ++ found.toList },
        some (answerSubmission id answer))
  | _ => (srv, none)

/-! ## What the steps do -/

theorem popOldJobs_order (order : List String) : ∀ jobs : Table String StratumJob,
    (popOldJobs order jobs).1 = order.drop (order.length - maxActiveJobs) := by
  induction order with
  | nil => intro jobs; rfl
  | cons old order ih =>
    intro jobs
    unfold popOldJobs
    by_cases h : order.length + 1 > maxActiveJobs
    · have hdrop : order.length + 1 - maxActiveJobs = order.length - maxActiveJobs + 1 := by omega
      rw [if_pos h, ih, List.length_cons, hdrop, List.drop_succ_cons]
    · have hdrop : order.length + 1 - maxActiveJobs = 0 := by omega
      rw [if_neg h, List.length_cons, hdrop, List.drop_zero]

theorem popOldJobs_get (order : List String) : ∀ {jobs : Table String StratumJob} {id : String} {job : StratumJob},
    (popOldJobs order jobs).2[id]? = some job → jobs[id]? = some job := by
  induction order with
  | nil => intro jobs id job h; exact h
  | cons old order ih =>
    intro jobs id job h
    unfold popOldJobs at h
    by_cases hl : order.length + 1 > maxActiveJobs
    · rw [if_pos hl] at h
      have h := ih h
      rw [Table.get_erase] at h
      by_cases e : old = id
      · simp [e] at h
      · simpa [e] using h
    · rw [if_neg hl] at h
      exact h

@[simp] theorem setConnection_same (srv : StratumServer D) (k : Nat) (c : Connection D) :
    (srv.setConnection k c).connections k = some c := by simp [setConnection]

@[simp] theorem setConnection_ne (srv : StratumServer D) {k j : Nat} (c : Connection D) (h : j ≠ k) :
    (srv.setConnection k c).connections j = srv.connections j := by simp [setConnection, h]

end StratumServer

/-- The job of a submission was found under its identifier. -/
theorem readSubmission_ok {jobs : Table String StratumJob} {params : JsonValue} {x : Submission}
    (h : readSubmission jobs params = .ok x) : jobs[x.jobId]? = some x.job := by
  unfold readSubmission at h
  split at h
  · simp only at h
    split at h
    · cases h
    · rename_i activeJob hjob
      split at h
      · cases h
      · split at h
        · split at h
          · cases h
          · cases h
            exact hjob
        · cases h
  · cases h

section
variable {H : Hasher} {D : Type} {shareTarget : D → Nat} {session : WorkerSession D} {x : Submission}

@[simp] theorem refuse_submittedShares (session : WorkerSession D) (counted : Bool) :
    (session.refuse counted).submittedShares = session.submittedShares := by
  cases counted <;> rfl

@[simp] theorem dispatchOther_submittedShares (session : WorkerSession D) (req : StratumRequest) :
    (dispatchOther session req).1.submittedShares = session.submittedShares := by
  unfold dispatchOther
  split
  · rfl
  · split <;> rfl
  · rfl
  · rfl
  · rfl

/-- A session never forgets a share when it settles one. -/
theorem settleSubmission_keeps {key : ShareKey} (h : key ∈ session.submittedShares) :
    key ∈ (settleSubmission H shareTarget session x).1.submittedShares := by
  unfold settleSubmission WorkerSession.checkAndRecordShare
  by_cases hk : x.key ∈ session.submittedShares
  · simp [hk, h]
  · simp only [if_neg hk]
    split <;> simp [h]

/-- A share is credited only where it is new to the session, which remembers it from then on. -/
theorem settleSubmission_credits (h : (settleSubmission H shareTarget session x).2.1 = .ok ()) :
    x.key ∉ session.submittedShares ∧ x.key ∈ (settleSubmission H shareTarget session x).1.submittedShares := by
  unfold settleSubmission WorkerSession.checkAndRecordShare at h ⊢
  by_cases hk : x.key ∈ session.submittedShares
  · simp [hk] at h
  · refine ⟨hk, ?_⟩
    simp only [if_neg hk]
    split <;> simp

/-- The two steps of a connection that nothing comes between. -/
theorem dispatchRpc_steps {srv : StratumServer D} {k : Nat} (hk : srv.connections k = some ⟨session, none⟩)
    (req : StratumRequest) :
    (∀ r, (srv.receive k req).2 = some r → r = (dispatchRpc H shareTarget srv.jobs session req).2.1 ∧
      (srv.receive k req).1.connections k = some ⟨(dispatchRpc H shareTarget srv.jobs session req).1, none⟩) ∧
    ((srv.receive k req).2 = none →
      ((srv.receive k req).1.settle H shareTarget k).2 = some (dispatchRpc H shareTarget srv.jobs session req).2.1 ∧
      ((srv.receive k req).1.settle H shareTarget k).1.connections k =
        some ⟨(dispatchRpc H shareTarget srv.jobs session req).1, none⟩) := by
  simp only [StratumServer.receive, hk, dispatchRpc]
  by_cases hm : req.method = "mining.submit"
  · simp only [if_pos hm]
    cases readSubmission srv.jobs req.params with
    | error e => simp
    | ok x => simp [StratumServer.settle]
  · simp [if_neg hm]

end

end Scytale

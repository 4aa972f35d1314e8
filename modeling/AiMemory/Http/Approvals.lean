import AiMemory.Db.Votes
import AiMemory.Sync.Records

/-!
# The approval endpoint

`POST /api/v1/approvals/{pending_id}` is gated by an HMAC over `<timestamp>.<body>`, with a timestamp that is at
most 300 seconds old and at most 60 seconds ahead. The pending id in the path and the agent in `X-Agent-Id` are
not part of what is signed, and a signed request may be sent any number of times while its timestamp is accepted.
-/

namespace AiMemory

open Relational

inductive Decision where
  | approve
  | deny
  deriving DecidableEq

inductive Remember where
  | once
  | session
  | forever
  deriving DecidableEq

def Decision.label : Decision → String
  | approve => "approve"
  | deny => "deny"

def Remember.label : Remember → String
  | once => "once"
  | session => "session"
  | forever => "forever"

structure ApprovalRequestBody where
  decision : Decision
  remember : Remember := .once

structure SyntheticPermissionRule where
  actionType : String
  ns : String
  agentId : Option String
  decision : String
  recordedAt : String
  deriving DecidableEq

def recordSyntheticRule (rules : List SyntheticPermissionRule) (rule : SyntheticPermissionRule) :
    List SyntheticPermissionRule :=
  if rules.any fun r => r.actionType = rule.actionType ∧ r.ns = rule.ns ∧ r.agentId = rule.agentId ∧
    r.decision = rule.decision then rules
  else rules ++ [rule]

structure ApprovalDecided where
  pendingId : String
  decision : String
  decidedBy : String
  remember : String
  ns : String
  requestedBy : String
  deriving DecidableEq

namespace ApprovalApi

/-- The configured secret, the hash functions in hex, and the two parsers. -/
structure Env where
  activeHooksHmacSecret : Option String
  sha256Hex : String → String
  hmacSha256Hex : String → String → String
  bodyFromSlice : ByteArray → Except String ApprovalRequestBody
  memoryFromValue : Json → Except String Memory

/-- A reading of the clock, also in seconds, within the years a `DateTime` can have. -/
structure Clock where
  tick : Tick
  secs : ℤ
  secs_ge : -2 ^ 43 ≤ secs
  secs_lt : secs < 2 ^ 43

/-- A request: the path, the headers that are text, and the body. -/
structure Request where
  id : String
  agentId : Option String
  signature : Option String
  timestamp : Option String
  body : ByteArray

/-- What the server holds. -/
structure Server where
  db : Db
  rules : List SyntheticPermissionRule := []
  events : List ApprovalDecided := []

/-- The responses, with the texts of their errors. -/
inductive Answer where
  | unauthorized
  | badRequest (error : String)
  | forbidden (error : String)
  | notFound (error : String)
  | internalServerError (error : String)
  | approved (id decidedBy : String) (memoryId : Option String) (remember : String)
  | pending (id : String) (votes quorum : ℕ) (remember : String)
  | rejected (id decidedBy remember : String)
  deriving DecidableEq

/-- `APPROVAL_HMAC_MAX_AGE_SECS`. -/
def maxAgeSecs : ℤ := 300

/-- `APPROVAL_HMAC_MAX_SKEW_SECS`. -/
def maxSkewSecs : ℤ := 60

def signAndDigits : List Char → Bool × List Char
  | '-' :: ds => (true, ds)
  | '+' :: ds => (false, ds)
  | ds => (false, ds)

/-- `str::parse::<i64>`. -/
def parseI64 (s : String) : Option ℤ :=
  let (negative, digits) := signAndDigits s.toList
  if digits ≠ [] ∧ digits.all Char.isDigit then
    let n : ℤ := digits.foldl (fun n c => 10 * n + (c.toNat - '0'.toNat : ℕ)) 0
    let v := if negative then -n else n
    if -2 ^ 63 ≤ v ∧ v < 2 ^ 63 then some v else none
  else none

def stripPrefix (start s : String) : Option String :=
  if start.toList <+: s.toList then some (String.ofList (s.toList.drop start.toList.length)) else none

def constantTimeEq (a b : List UInt8) : Bool :=
  if a.length ≠ b.length then false
  else (a.zip b).foldl (fun diff p => diff ||| (p.1 ^^^ p.2)) 0 = 0

def asBytes (s : String) : List UInt8 := s.toByteArray.data.toList

def Env.sign (e : Env) (secret message : String) : String := e.hmacSha256Hex (e.sha256Hex secret) message

/-- `verify_approval_hmac`. The difference of two `i64` wraps. -/
def verifyApprovalHmac (e : Env) (c : Clock) (req : Request) : Bool :=
  match e.activeHooksHmacSecret with
  | none => false
  | some secret =>
    match req.signature.bind (stripPrefix "sha256=") with
    | none => false
    | some sigHex =>
      match req.timestamp with
      | none => false
      | some timestamp =>
        match parseI64 timestamp with
        | none => false
        | some tsSecs =>
          let delta := (c.secs - tsSecs).bmod (2 ^ 64)
          if delta > maxAgeSecs then false
          else if delta < -maxSkewSecs then false
          else
            match String.fromUTF8? req.body with
            | none => false
            | some bodyStr =>
              let canonical := timestamp ++ "." ++ bodyStr
              constantTimeEq (asBytes (e.sign secret canonical)) (asBytes sigHex)

/-- The end of a decision: the event, and for a remembered one the rule. -/
def Server.decided (s : Server) (db : Db) (c : Clock) (id agentId : String) (body : ApprovalRequestBody)
    (snapshot : Option PendingAction) : Server where
  db
  events := s.events ++ [⟨id, body.decision.label, agentId, body.remember.label,
    (snapshot.map fun p => p.ns).getD "", (snapshot.map fun p => p.requestedBy).getD ""⟩]
  rules :=
    if body.remember = .forever ∨ body.remember = .session then
      match snapshot with
      | some snap => recordSyntheticRule s.rules
          ⟨snap.actionType, snap.ns, some snap.requestedBy, body.decision.label, c.tick.now⟩
      | none => s.rules
    else s.rules

def approvalDecide (e : Env) (c : Clock) (req : Request) (s : Server) : Server × Answer :=
  if !verifyApprovalHmac e c req then (s, .unauthorized)
  else
    match e.bodyFromSlice req.body with
    | .error error => (s, .badRequest s!"invalid body: {error}")
    | .ok body =>
      match Validate.validateId req.id with
      | .error error => (s, .badRequest error)
      | .ok () =>
        match resolveHttpAgentId req.agentId c.tick.requestId with
        | .error error => (s, .badRequest s!"invalid agent_id: {error}")
        | .ok agentId =>
          let snapshot := s.db.getPendingAction req.id
          match body.decision with
          | .approve =>
            match s.db.approveWithApproverType req.id agentId c.tick.now c.tick.now with
            | (db, .approved) =>
              match db.executePendingAction ⟨e.memoryFromValue, c.tick.newId req.id, c.tick.now⟩ req.id with
              | .ok (db, memoryId) =>
                (s.decided db c req.id agentId body snapshot,
                  .approved req.id agentId memoryId body.remember.label)
              | .error _ => ({ s with db }, .internalServerError "approved but execution failed")
            | (db, .pending votes quorum) =>
              (s.decided db c req.id agentId body snapshot, .pending req.id votes quorum body.remember.label)
            | (db, .rejected reason) => ({ s with db }, .forbidden s!"approve rejected: {reason}")
          | .deny =>
            match s.db.decidePendingAction req.id false agentId c.tick.now with
            | (db, true) =>
              (s.decided db c req.id agentId body snapshot, .rejected req.id agentId body.remember.label)
            | (db, false) => ({ s with db }, .notFound "pending action not found or already decided")

/-! ## What the gate checks -/

section Gate

variable {e : Env} {c : Clock} {req : Request} {s : Server}

theorem foldl_or_eq_zero (l : List (UInt8 × UInt8)) (d : UInt8) :
    l.foldl (fun diff p => diff ||| (p.1 ^^^ p.2)) d = 0 ↔ d = 0 ∧ ∀ p ∈ l, p.1 = p.2 := by
  induction l generalizing d with
  | nil => simp
  | cons p l ih => simp [ih, and_assoc]

theorem constantTimeEq_iff {a b : List UInt8} : constantTimeEq a b = true ↔ a = b := by
  have hzip : a = b ↔ a.length = b.length ∧ ∀ p ∈ a.zip b, p.1 = p.2 := by
    rw [← List.forall₂_eq_eq_eq, List.forall₂_iff_zip]
    exact and_congr_right fun _ => ⟨fun h p hp => h hp, fun h x y hxy => h (x, y) hxy⟩
  unfold constantTimeEq
  rw [hzip]
  by_cases hlen : a.length = b.length
  · rw [if_neg (not_not.mpr hlen), decide_eq_true_eq, foldl_or_eq_zero, and_iff_right rfl, and_iff_right hlen]
  · rw [if_pos hlen]
    exact iff_of_false Bool.false_ne_true fun h => hlen h.1

theorem asBytes_inj {x y : String} : asBytes x = asBytes y ↔ x = y := by
  unfold asBytes
  rw [Array.toList_inj, ← ByteArray.ext_iff, String.toByteArray_inj]

theorem dot_mem_digits {cs : List Char} (h : '.' ∈ cs) : '.' ∈ (signAndDigits cs).2 := by
  unfold signAndDigits
  split
  · simpa using h
  · simpa using h
  · exact h

theorem dot_not_mem_of_parseI64 {x : String} {n : ℤ} (h : parseI64 x = some n) : '.' ∉ x.toList := by
  intro hmem
  have hno : ¬((signAndDigits x.toList).2 ≠ [] ∧ (signAndDigits x.toList).2.all Char.isDigit) := fun hds =>
    absurd (List.all_eq_true.mp hds.2 '.' (dot_mem_digits hmem)) (by decide)
  unfold parseI64 at h
  simp only [if_neg hno] at h
  cases h

/-- A number is an `i64`. -/
theorem parseI64_range {x : String} {n : ℤ} (h : parseI64 x = some n) : -2 ^ 63 ≤ n ∧ n < 2 ^ 63 := by
  unfold parseI64 at h
  simp only at h
  split_ifs at h with _ hneg hrange hrange <;> cases h <;> exact hrange

theorem split_at_dot {x y x' y' : String} (hx : '.' ∉ x.toList) (hx' : '.' ∉ x'.toList)
    (h : x ++ "." ++ y = x' ++ "." ++ y') : x = x' ∧ y = y' := by
  have hlist : x.toList ++ '.' :: y.toList = x'.toList ++ '.' :: y'.toList := by
    simpa using congrArg String.toList h
  have hne : ∀ l : List Char, '.' ∉ l → ∀ a ∈ l, (a != '.') = true := by
    intro l hl a ha
    rw [bne_iff_ne]
    rintro rfl
    exact hl ha
  have htake := congrArg (List.takeWhile (· != '.')) hlist
  rw [List.takeWhile_append_of_pos (hne _ hx), List.takeWhile_append_of_pos (hne _ hx')] at htake
  have hxs : x.toList = x'.toList := by simpa using htake
  rw [hxs, List.append_cancel_left_eq, List.cons.injEq] at hlist
  exact ⟨String.toList_injective hxs, String.toList_injective hlist.2⟩

theorem window_iff {n : ℤ} (hn : -2 ^ 63 ≤ n ∧ n < 2 ^ 63) :
    (c.secs - n).bmod (2 ^ 64) ≤ maxAgeSecs ∧ -maxSkewSecs ≤ (c.secs - n).bmod (2 ^ 64) ↔
      c.secs - maxAgeSecs ≤ n ∧ n ≤ c.secs + maxSkewSecs := by
  have hge := c.secs_ge
  have hlt := c.secs_lt
  unfold maxAgeSecs maxSkewSecs
  rw [Int.bmod_def]
  norm_num at *
  split_ifs <;> omega

def Request.message (req : Request) : Option String :=
  req.timestamp.bind fun timestamp => (String.fromUTF8? req.body).map fun body => timestamp ++ "." ++ body

def Request.tag (req : Request) : Option String := req.signature.bind (stripPrefix "sha256=")

/-- A request gets past the gate exactly with the signature of its timestamp and body under the secret and with a
timestamp in the window. -/
theorem verify_iff : verifyApprovalHmac e c req = true ↔ ∃ secret timestamp body n,
    e.activeHooksHmacSecret = some secret ∧ req.timestamp = some timestamp ∧
      String.fromUTF8? req.body = some body ∧ req.tag = some (e.sign secret (timestamp ++ "." ++ body)) ∧ parseI64 timestamp = some n ∧
        c.secs - maxAgeSecs ≤ n ∧ n ≤ c.secs + maxSkewSecs := by
  unfold verifyApprovalHmac Request.tag
  cases e.activeHooksHmacSecret with
  | none => simp
  | some secret =>
    cases req.signature.bind (stripPrefix "sha256=") with
    | none => simp
    | some sigHex =>
      cases req.timestamp with
      | none => simp
      | some timestamp =>
        cases hts : parseI64 timestamp with
        | none => simp [hts]
        | some n =>
          have hwindow := window_iff (c := c) (parseI64_range hts)
          cases String.fromUTF8? req.body with
          | none => simp [hts]
          | some body =>
            have hrhs : (∃ secret' timestamp' body' n', some secret = some secret' ∧
                some timestamp = some timestamp' ∧ some body = some body' ∧ some sigHex = some (e.sign secret' (timestamp' ++ "." ++ body')) ∧
                  parseI64 timestamp' = some n' ∧ c.secs - maxAgeSecs ≤ n' ∧ n' ≤ c.secs + maxSkewSecs) ↔
                (c.secs - maxAgeSecs ≤ n ∧ n ≤ c.secs + maxSkewSecs) ∧
                  e.sign secret (timestamp ++ "." ++ body) = sigHex := by
              constructor
              · rintro ⟨_, _, _, n', hsecret, htime, hbody, htag, hn', hin⟩
                cases hsecret
                cases htime
                cases hbody
                cases hts.symm.trans hn'
                exact ⟨hin, (Option.some.inj htag).symm⟩
              · rintro ⟨hin, rfl⟩
                exact ⟨_, _, _, n, rfl, rfl, rfl, rfl, hts, hin⟩
            rw [hrhs, ← hwindow]
            simp only [hts, gt_iff_lt]
            split_ifs with hold hnew
            · exact iff_of_false not_false fun h => absurd h.1.1 (not_le.mpr hold)
            · exact iff_of_false not_false fun h => absurd h.1.2 (not_le.mpr hnew)
            · rw [constantTimeEq_iff, asBytes_inj, and_iff_right ⟨not_lt.mp hold, not_lt.mp hnew⟩]

end Gate

/-! ## Runs -/

/-- A request the key holder signs. Its timestamp is a Unix time. -/
structure SignedRequest where
  id : String
  agentId : String
  timestamp : String
  body : String
  epoch : (parseI64 timestamp).isSome

def SignedRequest.message (r : SignedRequest) : String := r.timestamp ++ "." ++ r.body

/-- The server, and the requests that the key holder has signed. -/
structure State where
  server : Server
  signed : List SignedRequest := []

/-- The key holder signs a request, anyone sends one, or the server does something else. -/
inductive Op where
  | sign (r : SignedRequest)
  | send (c : Clock) (req : Request)
  | other (server : Server)

def step (e : Env) (s : State) : Op → State
  | .sign r => { s with signed := s.signed ++ [r] }
  | .send c req => { s with server := (approvalDecide e c req s.server).1 }
  | .other server => { s with server }

/-- The signature of a message is sent only when the key holder has signed it. -/
def Unforged (e : Env) (s : State) : Op → Prop
  | .send _ req => ∀ secret ∈ e.activeHooksHmacSecret, ∀ message ∈ req.message,
      req.tag = some (e.sign secret message) → ∃ r ∈ s.signed, r.message = message
  | _ => True

/-- The timestamp and the body of a request are those of a signed one, in its window. -/
structure SignedFor (c : Clock) (req : Request) (r : SignedRequest) : Prop where
  timestamp : req.timestamp = some r.timestamp
  body : req.body = r.body.toByteArray
  window : ∃ n, parseI64 r.timestamp = some n ∧ c.secs - maxAgeSecs ≤ n ∧ n ≤ c.secs + maxSkewSecs

/-- An action becomes approved or gets another list of votes. -/
def Approves (before after : Option PendingAction) : Prop :=
  ∃ pa pa', before = some pa ∧ after = some pa' ∧
    (pa.status ≠ "approved" ∧ pa'.status = "approved" ∨ pa'.approvals ≠ pa.approvals)

/-- A request that is accepted, or approves anything, has the timestamp and the body of a signed one, and one that
approves anything has a signed body that approves. -/
structure Authorised (e : Env) (s : State) (c : Clock) (req : Request) : Prop where
  accepted : (approvalDecide e c req s.server).2 ≠ .unauthorized → ∃ r ∈ s.signed, SignedFor c req r
  approves : ∀ id, Approves (s.server.db.getPendingAction id)
      ((approvalDecide e c req s.server).1.db.getPendingAction id) →
    id = req.id ∧ ∃ r ∈ s.signed, SignedFor c req r ∧
      ∃ body, e.bodyFromSlice r.body.toByteArray = .ok body ∧ body.decision = .approve

section Run

variable {e : Env} {c : Clock} {req : Request} {s : Server}

theorem approvalDecide_of_not (h : ¬verifyApprovalHmac e c req) : approvalDecide e c req s = (s, .unauthorized) := by
  unfold approvalDecide
  simp only [h, Bool.not_false, if_true]

/-- What a request can do to the pending actions. -/
theorem approvalDecide_cases (e : Env) (c : Clock) (req : Request) (s : Server) :
    (approvalDecide e c req s).1.db.pending = s.db.pending ∨
    verifyApprovalHmac e c req ∧ ∃ body agentId, e.bodyFromSlice req.body = .ok body ∧
      (body.decision = .approve ∧ (approvalDecide e c req s).1.db.pending =
          (s.db.approveWithApproverType req.id agentId c.tick.now c.tick.now).1.pending ∨
        body.decision = .deny ∧ (approvalDecide e c req s).1.db.pending =
          (s.db.decidePendingAction req.id false agentId c.tick.now).1.pending) := by
  by_cases hv : verifyApprovalHmac e c req
  · unfold approvalDecide
    simp only [hv, Bool.not_true, Bool.false_eq_true, if_false]
    cases hparse : e.bodyFromSlice req.body with
    | error error => exact Or.inl rfl
    | ok body =>
      simp only
      cases Validate.validateId req.id with
      | error error => exact Or.inl rfl
      | ok u =>
        simp only
        cases resolveHttpAgentId req.agentId c.tick.requestId with
        | error error => exact Or.inl rfl
        | ok agentId =>
          refine Or.inr ⟨trivial, body, agentId, rfl, ?_⟩
          simp only
          cases hdec : body.decision with
          | approve =>
            refine Or.inl ⟨rfl, ?_⟩
            simp only
            cases s.db.approveWithApproverType req.id agentId c.tick.now c.tick.now with
            | mk db outcome =>
              cases outcome with
              | approved =>
                simp only
                split
                · rename_i hx
                  exact (Push.executePendingAction_frame hx).2
                · rfl
              | pending votes quorum => rfl
              | rejected reason => rfl
          | deny =>
            refine Or.inr ⟨rfl, ?_⟩
            simp only
            cases s.db.decidePendingAction req.id false agentId c.tick.now with
            | mk db changed => cases changed <;> rfl
  · rw [approvalDecide_of_not hv]
    exact Or.inl rfl

theorem not_approves_self (p : Option PendingAction) : ¬Approves p p := by
  rintro ⟨pa, pa', hpa, hpa', h⟩
  cases hpa.symm.trans hpa'
  exact h.elim (fun h => h.1 h.2) fun h => h rfl

/-- An approval is of the action in the path, by a body that approves. -/
theorem approves_of_decide {i : String}
    (h : Approves (s.db.getPendingAction i) ((approvalDecide e c req s).1.db.getPendingAction i)) :
    i = req.id ∧ verifyApprovalHmac e c req ∧
      ∃ body, e.bodyFromSlice req.body = .ok body ∧ body.decision = .approve := by
  obtain hsame | ⟨hv, body, agentId, hparse, ⟨hdec, hpending⟩ | ⟨-, hpending⟩⟩ :=
    approvalDecide_cases e c req s
  · unfold Db.getPendingAction at h
    rw [hsame] at h
    exact absurd h (not_approves_self _)
  · refine ⟨?_, hv, body, hparse, hdec⟩
    by_contra hne
    unfold Db.getPendingAction at h
    rw [hpending, Db.find_approve_of_ne hne] at h
    exact not_approves_self _ h
  · -- a denial leaves the votes, and no action approved that was not
    exfalso
    obtain ⟨pa, pa', hpa, hpa', happ⟩ := h
    unfold Db.getPendingAction at hpa hpa'
    unfold Db.decidePendingAction at hpending
    rw [hpending, Db.find_updatePending] at hpa'
    obtain ⟨r, hr, rfl⟩ := Option.map_eq_some_iff.mp hpa
    rw [hr, Option.map_some, Option.map_some] at hpa'
    by_cases hup : i = req.id ∧ r.status = "pending"
    · rw [if_pos hup] at hpa'
      cases hpa'
      have hword : ("rejected" : String) ≠ "approved" := by decide
      exact happ.elim (fun h => hword h.2) fun h => h rfl
    · rw [if_neg hup] at hpa'
      cases hpa'
      exact happ.elim (fun h => h.1 h.2) fun h => h rfl

theorem authorised_of_unforged {st : State} (hunf : Unforged e st (.send c req)) : Authorised e st c req := by
  have hgate : verifyApprovalHmac e c req → ∃ r ∈ st.signed, SignedFor c req r := by
    intro hv
    obtain ⟨secret, timestamp, body, n, hsecret, htime, hbody, htag, hn, hin⟩ := verify_iff.mp hv
    have hmessage : req.message = some (timestamp ++ "." ++ body) := by
      unfold Request.message
      rw [htime, hbody]
      rfl
    obtain ⟨r, hr, hsame⟩ := hunf secret hsecret _ hmessage htag
    obtain ⟨n', hn'⟩ := Option.isSome_iff_exists.mp r.epoch
    obtain ⟨htime', hbody'⟩ := split_at_dot (dot_not_mem_of_parseI64 hn') (dot_not_mem_of_parseI64 hn) hsame
    refine ⟨r, hr, htime.trans (congrArg some htime'.symm), ?_, n, htime' ▸ hn, hin⟩
    rw [hbody']
    unfold String.fromUTF8? at hbody
    split_ifs at hbody
    cases hbody
    rfl
  refine ⟨fun hacc => hgate ?_, fun i happ => ?_⟩
  · by_contra hno
    rw [approvalDecide_of_not hno] at hacc
    exact hacc rfl
  · obtain ⟨hi, hv, body, hparse, hdec⟩ := approves_of_decide happ
    obtain ⟨r, hr, hfor⟩ := hgate hv
    exact ⟨hi, r, hr, hfor, body, hfor.body ▸ hparse, hdec⟩

/-- In every run in which no signature is forged, every request is authorised by one that the key holder signed
before. -/
theorem authorised_of_meets (e : Env) (server : Server) (ops : List Op)
    (hunf : Machine.Meets (step e) (Unforged e) { server } ops) :
    Machine.Meets (step e) (fun s op => ∀ c req, op = .send c req → Authorised e s c req) { server } ops := by
  refine Machine.meets_mono (fun s op hop c req he => ?_) hunf
  subst he
  exact authorised_of_unforged hop

end Run

/-! ## One signature, three requests -/

def approveBody : String := "\x7b\"decision\":\"approve\"\x7d"

/-- The secret is `s3cret`; the digests are those of the texts they are asked for here. -/
def env : Env where
  activeHooksHmacSecret := some "s3cret"
  sha256Hex s := if s = "s3cret" then "1ec1c26b50d5d3c58d9583181af8076655fe00756bf7285940ba3670f99fcba0" else ""
  hmacSha256Hex key message :=
    if key = "1ec1c26b50d5d3c58d9583181af8076655fe00756bf7285940ba3670f99fcba0" ∧
      message = "1767312000." ++ approveBody then
      "536494e4379d8f40cc0cc0e094262ae90f0f84ca66bbf3e17d495ebf0aef8516"
    else ""
  bodyFromSlice b :=
    if String.fromUTF8? b = some approveBody then .ok { decision := .approve } else .error "expected value"
  memoryFromValue _ := .error "invalid type"

/-- What the key holder signs: `alice` approves `p1`. -/
def aliceApproval : SignedRequest where
  id := "p1"
  agentId := "alice"
  timestamp := "1767312000"
  body := approveBody
  epoch := by decide

def clock : Clock := ⟨tickAt "2026-01-02T00:00:10+00:00", 1767312010, by decide, by decide⟩

/-- A request with the signature of `aliceApproval`. -/
def reuse (id agentId : String) : Request where
  id
  agentId := some agentId
  signature := some "sha256=536494e4379d8f40cc0cc0e094262ae90f0f84ca66bbf3e17d495ebf0aef8516"
  timestamp := some "1767312000"
  body := approveBody.toByteArray

/-- A request that waits for two voters, and one in a namespace without a policy. -/
def server : Server where
  db := { Votes.requested with
    pending := ⟨[Decided.request.toRow, { Decided.request with id := "p2", ns := "scratch" }.toRow], by decide⟩ }

theorem unforged_reuse {s : State} (hs : aliceApproval ∈ s.signed) (id agentId : String) :
    Unforged env s (.send clock (reuse id agentId)) := by
  intro secret _ message hmessage _
  refine ⟨aliceApproval, hs, ?_⟩
  have htext : String.fromUTF8? approveBody.toByteArray = some approveBody := by decide
  unfold Request.message reuse at hmessage
  simp only [Option.bind_some, htext, Option.map_some, Option.mem_some_iff] at hmessage
  exact hmessage

/-- `alice`'s request is authorised. -/
theorem alice_authorised : Machine.Meets (step env) (fun s op => ∀ c req, op = .send c req → Authorised env s c req)
    { server } [.sign aliceApproval, .send clock (reuse "p1" "alice")] :=
  authorised_of_meets env server _ ⟨trivial, unforged_reuse (List.mem_singleton.mpr rfl) _ _, trivial⟩

/-- Sent again as `bob` it is the second vote on `p1`, and sent again for `p2` it approves that: no request with this
agent, and none for this action, was signed. -/
theorem signature_reused :
    let ops := [.sign aliceApproval, .send clock (reuse "p1" "alice"), .send clock (reuse "p1" "bob"),
      .send clock (reuse "p2" "mallory")]
    let run := fun n => (ops.take n).foldl (step env) { server }
    let row := fun n id =>
      ((run n).server.db.getPendingAction id).map fun pa => (pa.status, pa.approvals.map (·.agentId))
    Machine.Meets (step env) (Unforged env) { server } ops ∧
    (row 2 "p1" = some ("pending", ["alice"]) ∧ row 3 "p1" = some ("approved", ["alice", "bob"])) ∧
    (row 3 "p2" = some ("pending", []) ∧ row 4 "p2" = some ("approved", [])) ∧
    ¬Machine.Meets (step env) (fun s op => ∀ c req, op = .send c req →
      (approvalDecide env c req s.server).2 ≠ .unauthorized →
        ∃ r ∈ s.signed, SignedFor c req r ∧ r.id = req.id ∧ req.agentId = some r.agentId) { server } ops := by
  intro ops run row
  have hin : aliceApproval ∈ [aliceApproval] := List.mem_singleton.mpr rfl
  refine ⟨⟨trivial, unforged_reuse hin _ _, unforged_reuse hin _ _, unforged_reuse hin _ _, trivial⟩,
    ⟨by decide, by decide⟩, ⟨by decide, by decide⟩, ?_⟩
  rintro ⟨-, -, hbob, -⟩
  obtain ⟨r, hr, -, -, hagent⟩ := hbob clock (reuse "p1" "bob") rfl (by decide)
  cases List.mem_singleton.mp hr
  revert hagent
  decide

end ApprovalApi

end AiMemory

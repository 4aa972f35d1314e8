import AiMemory.Mcp.Effects

/-!
# Messages

`handle_notify` stores a message as a memory of the namespace `_messages/<recipient>`, and `handle_inbox` lists that namespace. The store
is the upsert of the memories: a message with the title of an earlier one to the same recipient replaces its payload and keeps its sender.
The page of an inbox is cut before the read messages are left out. Where no title is used twice, every message arrives once and unaltered
(`run_delivers`).
-/

namespace AiMemory

namespace Mcp

open MemoryApi Relational Machine

def messagesNamespaceFor (agentId : String) : String := "_messages/" ++ agentId

/-- What `handle_notify` works out before it stores. -/
structure NotifyRequest where
  mem : Memory
  sender : String
  recipient : String
  deriving DecidableEq

/-- The part of `handle_notify` before the store. -/
def Host.notifyRequest (h : Host) (t : Draw h.app.chrono) (params : Json) (mcpClient : Option String) : Except String NotifyRequest := do
  let recipient ← required params "target_agent_id"
  let title ← required params "title"
  let payload ← required params "payload"
  let priority ← i32Of ((intParam params "priority").getD 5)
  let tier ← tierOf ((strParam params "tier").getD "mid")
  Validate.validateAgentId recipient
  Validate.validateTitle title
  Validate.validateContent payload
  let sender ← h.process.resolveAgentId none mcpClient
  return {
    mem := {
      id := t.newId 0
      tier
      ns := messagesNamespaceFor recipient
      title
      content := payload
      tags := ["_message"]
      priority := max 1 (min priority 10)
      confidence := 1
      source := "notify"
      accessCount := 0
      createdAt := t.now.text
      updatedAt := t.now.text
      lastAccessedAt := none
      metadata := .obj [("agent_id", .str sender), ("message_kind", .str "notify"), ("recipient_agent_id", .str recipient)]
      expiresAt := (h.app.ttlForTier tier).map fun s => h.app.chrono.toRfc3339 (t.now.instant + s * 10 ^ 9) }
    sender
    recipient }

def handleNotify (h : Host) (t : Draw h.app.chrono) (params : Json) (mcpClient : Option String) (n : Node) : Node × Except String Json :=
  match h.notifyRequest t params mcpClient with
  | .error e => (n, .error e)
  | .ok req =>
    match n.db.insert req.mem with
    | .error e => (n, .error e)
    | .ok (db, actualId) => ({ n with db }, .ok (.obj [("delivered_at", .str req.mem.createdAt), ("from", .str req.sender),
        ("id", .str actualId), ("namespace", .str req.mem.ns), ("tier", .str req.mem.tier.asStr), ("to", .str req.recipient)]))

def senderOf (m : Memory) : String := (strParam m.metadata "agent_id").getD ""

def messageValue (m : Memory) : Json :=
  .obj [("access_count", .int m.accessCount), ("created_at", .str m.createdAt), ("from", .str (senderOf m)), ("id", .str m.id),
    ("payload", .str m.content), ("priority", .int m.priority), ("read", .bool (0 < m.accessCount)), ("tier", .str m.tier.asStr),
    ("title", .str m.title)]

/-- The limit of an inbox: 50, unless the call asks for another; and 500 at most. -/
def inboxLimit (params : Json) : ℕ := min ((natParam params "limit").getD 50) 500

def unreadOnly (params : Json) : Bool := (boolParam params "unread_only").getD false

def inboxQuery (owner : String) (limit : ℕ) : ListQuery :=
  ⟨some (messagesNamespaceFor owner), none, limit, 0, none, none, none, none, none⟩

def handleInbox (h : Host) (now : String) (params : Json) (mcpClient : Option String) (n : Node) : Except String Json :=
  match h.process.resolveAgentId (strParam params "agent_id") mcpClient with
  | .error e => .error e
  | .ok owner =>
    let items := n.db.list (inboxQuery owner (inboxLimit params)) now
    let messages := (items.filter fun m => !unreadOnly params || m.accessCount = 0).map messageValue
    .ok (.obj [("agent_id", .str owner), ("count", .int messages.length), ("messages", .arr messages),
      ("namespace", .str (messagesNamespaceFor owner)), ("unread_only", .bool (unreadOnly params))])

/-! ## Runs -/

/-- A message as it was sent. -/
structure SentMessage where
  recipient : String
  title : String
  payload : String
  sender : String
  deriving DecidableEq

/-- A node, and the messages that its calls of `handle_notify` have sent. -/
structure Mailbox where
  node : Node
  sent : List SentMessage

/-- A message is sent, something else is stored, or a memory is read. -/
inductive Event (h : Host) where
  | notify (t : Draw h.app.chrono) (params : Json) (mcpClient : Option String)
  | store (t : Draw h.app.chrono) (params : Json) (mcpClient : Option String)
  | read (id : String) (times : Db.TouchTimes)

/-- The message of a call: its target, its title, its payload, and who sends it. -/
def Host.messageOf (h : Host) (params : Json) (mcpClient : Option String) : Option SentMessage := do
  let recipient ← strParam params "target_agent_id"
  let title ← strParam params "title"
  let payload ← strParam params "payload"
  let sender ← (h.process.resolveAgentId none mcpClient).toOption
  return { recipient, title, payload, sender }

variable {h : Host}

def Mailbox.step (s : Mailbox) : Event h → Mailbox
  | .notify t params mcpClient =>
    match handleNotify h t params mcpClient s.node with
    | (node, .ok _) => { node, sent := s.sent ++ (h.messageOf params mcpClient).toList }
    | (node, .error _) => { s with node }
  | .store t params mcpClient => { s with node := (handleStore h t params mcpClient s.node).1 }
  | .read id times => { s with node := { s.node with db := s.node.db.touch id times } }

def Mailbox.sentTo (s : Mailbox) (agentId : String) : List SentMessage := s.sent.filter fun m => m.recipient = agentId

/-- A store goes elsewhere. -/
def Event.Apart (s : Mailbox) : Event h → Prop
  | .store t params mcpClient => ∀ req, h.storeRequest t params mcpClient s.node.db = .ok req →
      ∀ agentId, req.mem.ns ≠ messagesNamespaceFor agentId
  | _ => True

/-- A message has a title that no earlier one to its recipient has. -/
def Event.Distinct (s : Mailbox) : Event h → Prop
  | .notify t params mcpClient => ∀ req, h.notifyRequest t params mcpClient = .ok req →
      ∀ m ∈ s.sentTo req.recipient, m.title ≠ req.mem.title
  | _ => True

/-- No message of the inbox has expired. -/
def Mailbox.Unexpired (s : Mailbox) (agentId now : String) : Prop :=
  ∀ m ∈ s.node.db.live, m.ns = messagesNamespaceFor agentId → m.expiresAt.all (now < ·)

def Mailbox.inbox (s : Mailbox) (agentId : String) : List Memory :=
  s.node.db.live.filter fun m => m.ns = messagesNamespaceFor agentId

def Mailbox.unread (s : Mailbox) (agentId : String) : List Memory := (s.inbox agentId).filter fun m => m.accessCount = 0

/-- Every message of the first page is unread, or no message after it is. -/
def Mailbox.PageOk (s : Mailbox) (agentId : String) (limit : ℕ) : Prop :=
  let sorted := (s.inbox agentId).mergeSort Db.listBefore
  (∀ m ∈ sorted.take limit, m.accessCount = 0) ∨ ∀ m ∈ sorted.drop limit, m.accessCount ≠ 0

def entries (answer : Json) : List Json :=
  match answer.get "messages" with
  | some (.arr items) => items
  | _ => []

def shown (entry : Json) : Option String × Option String × Option String :=
  (strParam entry "title", strParam entry "payload", strParam entry "from")

def SentMessage.shown (m : SentMessage) : Option String × Option String × Option String := (some m.title, some m.payload, some m.sender)

/-- The answer to a call has one entry for each message sent to the owner, with its title, its payload and its sender. -/
def Delivers (s : Mailbox) (owner : String) (answer : Except String Json) : Prop :=
  ∃ j, answer = .ok j ∧ ((entries j).map shown).Perm ((s.sentTo owner).map SentMessage.shown)

/-- The answer has as many unread messages as there are, up to the limit, and no other. -/
def ShowsUnread (s : Mailbox) (owner : String) (limit : ℕ) (answer : Except String Json) : Prop :=
  ∃ j, answer = .ok j ∧ (entries j).length = min limit (s.unread owner).length ∧ ∀ e ∈ entries j, e.get "read" = some (.bool false)

/-! ## One step -/

section Steps

variable {t : Draw h.app.chrono} {params : Json} {mcpClient : Option String} {n : Node} {req : NotifyRequest} {agentId now : String}
  {s : Mailbox} {db db' : Db} {limit : ℕ}

theorem messagesNamespaceFor_inj {a b : String} (hab : messagesNamespaceFor a = messagesNamespaceFor b) : a = b := by
  have hlist := congrArg String.toList hab
  unfold messagesNamespaceFor at hlist
  rw [String.toList_append, String.toList_append] at hlist
  exact String.ext (List.append_cancel_left hlist)

def letter (m : Memory) : Option String × Option String × Option String := (some m.title, some m.content, some (senderOf m))

theorem required_eq_ok {key value : String} : required params key = .ok value ↔ strParam params key = some value := by
  unfold required
  cases strParam params key with
  | none => exact iff_of_false nofun nofun
  | some x => exact ⟨fun hok => congrArg some (Except.ok.inj hok), fun hsome => congrArg Except.ok (Option.some.inj hsome)⟩

theorem notifyRequest_spec (hreq : h.notifyRequest t params mcpClient = .ok req) :
    h.messageOf params mcpClient = some ⟨req.recipient, req.mem.title, req.mem.content, req.sender⟩ ∧
      req.mem.ns = messagesNamespaceFor req.recipient ∧ senderOf req.mem = req.sender := by
  unfold Host.notifyRequest at hreq
  simp only [bind_eq_ok_iff, required_eq_ok] at hreq
  obtain ⟨recipient, hrecipient, title, htitle, payload, hpayload, priority, -, tier, -, -, -, -, -, -, -, sender, hsender, hreq⟩ := hreq
  cases hreq
  unfold Host.messageOf
  rw [hrecipient, htitle, hpayload, hsender]
  exact ⟨rfl, rfl, rfl⟩

/-- The rows of an inbox show the messages that were sent to it. -/
def Mailbox.Holds (s : Mailbox) (agentId : String) : Prop :=
  ((s.inbox agentId).map letter).Perm ((s.sentTo agentId).map SentMessage.shown)

theorem list_inboxQuery (hlive : s.Unexpired agentId now) :
    s.node.db.list (inboxQuery agentId limit) now = ((s.inbox agentId).mergeSort Db.listBefore).take limit := by
  unfold Db.list inboxQuery Mailbox.inbox
  rw [List.drop_zero]
  congr 2
  refine List.filter_congr fun m hm => ?_
  simp only [Db.listFilters, Option.all_some, Option.all_none, Bool.and_true]
  by_cases hns : m.ns = messagesNamespaceFor agentId
  · rw [hlive m hm hns, Bool.and_true]
  · simp [hns]

/-- What `handle_inbox` answers. -/
theorem handleInbox_of {owner : String} (howner : h.process.resolveAgentId (strParam params "agent_id") mcpClient = .ok owner)
    (hlive : s.Unexpired owner now) : ∃ j, handleInbox h now params mcpClient s.node = .ok j ∧ entries j =
      ((((s.inbox owner).mergeSort Db.listBefore).take (inboxLimit params)).filter
        fun m => !unreadOnly params || m.accessCount = 0).map messageValue := by
  unfold handleInbox
  rw [howner]
  simp only
  rw [list_inboxQuery hlive]
  exact ⟨_, rfl, rfl⟩

theorem inbox_eq (s : Mailbox) (agentId : String) : s.inbox agentId =
    (s.node.db.memories.rows.filter fun r => r.ns = messagesNamespaceFor agentId).map fun r => r.toMemory := by
  unfold Mailbox.inbox Db.live
  rw [List.filter_map]
  rfl

theorem inbox_perm {n' : Node} (hsame : SameIn (messagesNamespaceFor agentId) s.node.db n'.db) :
    (Mailbox.inbox ⟨n', s.sent⟩ agentId).Perm (s.inbox agentId) := by
  rw [inbox_eq, inbox_eq]
  have hnodup : ∀ db : Db, db.memories.rows.Nodup := fun db => db.memories.nodup.of_map
  refine List.Perm.map _ ((List.perm_ext_iff_of_nodup ((hnodup n'.db).filter _) ((hnodup s.node.db).filter _)).mpr fun r => ?_)
  rw [List.mem_filter, List.mem_filter]
  refine and_congr_left fun hns => ?_
  exact hsame r (of_decide_eq_true hns)

theorem sameIn_handleStore {ns : String} (hns : ∀ req, h.storeRequest t params mcpClient n.db = .ok req → req.mem.ns ≠ ns) :
    SameIn ns n.db (handleStore h t params mcpClient n).1.db := by
  rcases handleStore_cases h t params mcpClient n with ⟨e, heq⟩ | ⟨req, hreq, ⟨j, heq⟩ | ⟨-, ⟨db, j, -, hqueue, heq⟩ | ⟨-, heq⟩⟩⟩
  · rw [heq]
    exact SameIn.refl ns n.db
  · rw [heq]
    exact SameIn.refl ns n.db
  · obtain ⟨-, row, table, -, -, -, -, -, -, rfl⟩ := Db.queuePendingAction_eq_ok hqueue
    rw [heq]
    exact SameIn.refl ns n.db
  · rw [heq]
    rcases storeAllowed_cases h mcpClient n (storeRequest_spec hreq).1 with ⟨n', e, hs, hkept⟩ | ⟨dup, db, j, -, hs, hstores⟩ |
      ⟨n', id, j, hs, hstores, -⟩
    · rw [hs, hkept.db]
      exact SameIn.refl ns n.db
    · rw [hs]
      exact hstores.sameIn (hns req hreq)
    · rw [hs]
      exact hstores.sameIn (hns req hreq)

theorem touchRow_letter (times : Db.TouchTimes) (r : MemoryRow) : letter (Db.touchRow times r).toMemory = letter r.toMemory := by
  unfold Db.touchRow Db.reinforceRow Db.promoteRow Db.bumpRow
  split_ifs <;> rfl

theorem inbox_touch (id : String) (times : Db.TouchTimes) :
    (Mailbox.inbox ⟨{ s.node with db := s.node.db.touch id times }, s.sent⟩ agentId).map letter = (s.inbox agentId).map letter := by
  rw [inbox_eq, inbox_eq]
  show (((s.node.db.memories.rows.map fun r => if r.id = id then Db.touchRow times r else r).filter _).map _).map letter = _
  rw [List.filter_map, List.map_map, List.map_map, List.map_map]
  have hns : ∀ r : MemoryRow, (if r.id = id then Db.touchRow times r else r).ns = r.ns := by
    intro r
    split_ifs
    · exact congrArg Prod.snd (Db.touchRow_key times r)
    · rfl
  have hletter : ∀ r : MemoryRow, letter (if r.id = id then Db.touchRow times r else r).toMemory = letter r.toMemory := by
    intro r
    split_ifs
    · exact touchRow_letter times r
    · rfl
  rw [List.filter_congr fun r _ => show _ = decide (r.ns = messagesNamespaceFor agentId) by rw [Function.comp_apply, hns]]
  exact List.map_congr_left fun r _ => hletter r

theorem handleNotify_cases (h : Host) (t : Draw h.app.chrono) (params : Json) (mcpClient : Option String) (n : Node) :
    (∃ e, handleNotify h t params mcpClient n = (n, .error e)) ∨
    ∃ req db id j, h.notifyRequest t params mcpClient = .ok req ∧ n.db.insert req.mem = .ok (db, id) ∧
      handleNotify h t params mcpClient n = ({ n with db }, .ok j) := by
  unfold handleNotify
  cases hreq : h.notifyRequest t params mcpClient with
  | error e => exact Or.inl ⟨e, rfl⟩
  | ok req =>
    simp only
    cases hi : n.db.insert req.mem with
    | error e => exact Or.inl ⟨e, rfl⟩
    | ok res => exact Or.inr ⟨req, res.1, res.2, _, rfl, hi, rfl⟩

theorem inbox_insert {mem : Memory} {id : String} (hi : s.node.db.insert mem = .ok (db, id)) (hnew : s.node.db.getKey mem.key = none) :
    Mailbox.inbox ⟨{ s.node with db }, s.sent⟩ agentId =
      s.inbox agentId ++ if mem.ns = messagesNamespaceFor agentId then [mem] else [] := by
  rcases Db.insertOnConflict_cases hi with ⟨stored, hstored, -, -⟩ | ⟨-, -, -, table, htable, rfl⟩
  · rw [hnew] at hstored
    cases hstored
  · rw [inbox_eq, inbox_eq, show (Mailbox.mk { s.node with db := { s.node.db with memories := table } } s.sent).node.db.memories.rows =
      s.node.db.memories.rows ++ [mem.toRow] from Indexed.insertNew?_rows htable, List.filter_append, List.map_append]
    congr 1
    split_ifs with hns
    · rw [List.filter_cons_of_pos (by exact decide_eq_true hns)]
      rfl
    · rw [List.filter_cons_of_neg (by exact fun htrue => hns (of_decide_eq_true htrue))]
      rfl

theorem sentTo_append (s : Mailbox) (node : Node) (m : SentMessage) (agentId : String) :
    Mailbox.sentTo ⟨node, s.sent ++ [m]⟩ agentId = s.sentTo agentId ++ if m.recipient = agentId then [m] else [] := by
  unfold Mailbox.sentTo
  simp [List.filter_cons]

theorem getKey_of_distinct {mem : Memory} (hholds : s.Holds agentId) (hns : mem.ns = messagesNamespaceFor agentId)
    (hdistinct : ∀ m ∈ s.sentTo agentId, m.title ≠ mem.title) : s.node.db.getKey mem.key = none := by
  by_contra hsome
  obtain ⟨r, hrow, hkey⟩ := Db.getKey_ne_none_iff.mp hsome
  have hmem : r.toMemory ∈ s.inbox agentId :=
    List.mem_filter.mpr ⟨Db.mem_live.mpr ⟨r, hrow, rfl⟩, decide_eq_true ((congrArg Prod.snd hkey).trans hns)⟩
  obtain ⟨m, hm, hshown⟩ := List.mem_map.mp (hholds.subset (List.mem_map_of_mem hmem))
  have htitle : m.title = r.title := Option.some.inj (congrArg Prod.fst hshown)
  exact hdistinct m hm (htitle.trans (congrArg Prod.fst hkey))

end Steps

/-! ## Runs -/

section Runs

variable {s : Mailbox}

theorem holds_step (e : Event h) (hholds : ∀ agentId, s.Holds agentId) (he : e.Apart s ∧ e.Distinct s) (agentId : String) :
    (s.step e).Holds agentId := by
  obtain ⟨hapart, hdistinct⟩ := he
  cases e with
  | read id times =>
    show ((Mailbox.inbox ⟨{ s.node with db := s.node.db.touch id times }, s.sent⟩ agentId).map letter).Perm _
    rw [inbox_touch]
    exact hholds agentId
  | store t params mcpClient =>
    exact ((inbox_perm (sameIn_handleStore fun req hreq => hapart req hreq agentId)).map letter).trans (hholds agentId)
  | notify t params mcpClient =>
    unfold Mailbox.step
    simp only
    rcases handleNotify_cases h t params mcpClient s.node with ⟨e, heq⟩ | ⟨req, db, id, j, hreq, hi, heq⟩
    · rw [heq]
      exact hholds agentId
    · obtain ⟨hmessage, hns, hsender⟩ := notifyRequest_spec hreq
      have hnew := getKey_of_distinct (hholds req.recipient) hns (hdistinct req hreq)
      rw [heq, hmessage]
      show List.Perm (List.map letter (Mailbox.inbox ⟨{ s.node with db }, s.sent⟩ agentId)) _
      rw [inbox_insert hi hnew, Option.toList_some, sentTo_append, List.map_append, List.map_append]
      refine (hholds agentId).append ?_
      by_cases hto : req.recipient = agentId
      · rw [if_pos hto, if_pos (hns.trans (congrArg messagesNamespaceFor hto)), List.map_singleton, List.map_singleton]
        unfold letter SentMessage.shown
        rw [hsender]
      · rw [if_neg hto, if_neg fun hsame => hto (messagesNamespaceFor_inj (hns.symm.trans hsame))]
        exact List.Perm.refl _

/-- A page of `k` shows as many of the elements with `p` as it can exactly when it has no others, or none is left after it. -/
theorem length_filter_take_iff {α : Type*} (p : α → Bool) (l : List α) (k : ℕ) :
    ((l.take k).filter p).length = min k (l.filter p).length ↔ (∀ x ∈ l.take k, p x) ∨ ∀ x ∈ l.drop k, ¬p x := by
  have hsum : (l.filter p).length = ((l.take k).filter p).length + ((l.drop k).filter p).length := by
    rw [← List.length_append, ← List.filter_append, List.take_append_drop]
  have hle : ((l.take k).filter p).length ≤ (l.take k).length := List.length_filter_le _ _
  have htake : (l.take k).length = min k l.length := List.length_take
  have hall : ((l.take k).filter p).length = (l.take k).length ↔ ∀ x ∈ l.take k, p x := List.length_filter_eq_length_iff
  have hnone : ((l.drop k).filter p).length = 0 ↔ ∀ x ∈ l.drop k, ¬p x := by
    rw [List.length_eq_zero_iff, List.filter_eq_nil_iff]
  have hrest : ((l.drop k).filter p).length ≤ l.length - k := (List.length_filter_le _ _).trans_eq List.length_drop
  rw [← hall, ← hnone]
  omega

theorem delivers_of_holds {params : Json} {mcpClient : Option String} {now owner : String} (hholds : s.Holds owner)
    (howner : h.process.resolveAgentId (strParam params "agent_id") mcpClient = .ok owner) (hlive : s.Unexpired owner now)
    (hall : unreadOnly params = false) (hlimit : (s.sentTo owner).length ≤ inboxLimit params) :
    Delivers s owner (handleInbox h now params mcpClient s.node) := by
  obtain ⟨j, hj, hentries⟩ := handleInbox_of howner hlive
  have hlength : (s.inbox owner).length = (s.sentTo owner).length := by
    have hperm := hholds.length_eq
    rwa [List.length_map, List.length_map] at hperm
  have hroom : ((s.inbox owner).mergeSort Db.listBefore).length ≤ inboxLimit params := by
    rwa [List.length_mergeSort, hlength]
  refine ⟨j, hj, ?_⟩
  rw [hentries, List.take_of_length_le hroom, hall, List.map_map]
  have heverything : ((s.inbox owner).mergeSort Db.listBefore).filter (fun m => !false || m.accessCount = 0) =
      (s.inbox owner).mergeSort Db.listBefore := List.filter_eq_self.mpr fun _ _ => rfl
  rw [heverything]
  exact ((List.mergeSort_perm _ _).map letter).trans hholds

theorem showsUnread_iff {params : Json} {mcpClient : Option String} {now owner : String}
    (howner : h.process.resolveAgentId (strParam params "agent_id") mcpClient = .ok owner) (hlive : s.Unexpired owner now)
    (hunread : unreadOnly params = true) :
    ShowsUnread s owner (inboxLimit params) (handleInbox h now params mcpClient s.node) ↔ s.PageOk owner (inboxLimit params) := by
  obtain ⟨j, hj, hentries⟩ := handleInbox_of howner hlive
  have hfilter : entries j = ((((s.inbox owner).mergeSort Db.listBefore).take (inboxLimit params)).filter
      fun m => m.accessCount = 0).map messageValue := by
    rw [hentries, hunread]
    rfl
  have hcount : (s.unread owner).length = (((s.inbox owner).mergeSort Db.listBefore).filter fun m => m.accessCount = 0).length :=
    (((List.mergeSort_perm (s.inbox owner) Db.listBefore).filter _).length_eq).symm
  have hlength : (entries j).length = min (inboxLimit params) (s.unread owner).length ↔ s.PageOk owner (inboxLimit params) := by
    rw [hfilter, List.length_map, hcount, length_filter_take_iff]
    simp only [Mailbox.PageOk, decide_eq_true_eq, ne_eq]
  refine ⟨fun ⟨j', hj', hshown, _⟩ => ?_, fun hpage => ⟨j, hj, hlength.mpr hpage, fun e he => ?_⟩⟩
  · cases hj.symm.trans hj'
    exact hlength.mp hshown
  · rw [hfilter] at he
    obtain ⟨m, hm, rfl⟩ := List.mem_map.mp he
    have hzero : m.accessCount = 0 := of_decide_eq_true (List.mem_filter.mp hm).2
    show some (Json.bool (decide (0 < m.accessCount))) = _
    rw [hzero]
    rfl

end Runs

/-- In a run that starts without messages, and in which no message repeats the title of an earlier one to its recipient, every inbox has
every message once and unaltered; and it shows as many unread messages as it can, unless the page ends between a read one and an unread
one. -/
theorem run_delivers (n : Node) (hempty : ∀ r ∈ n.db.memories, ∀ agentId, r.ns ≠ messagesNamespaceFor agentId) (es : List (Event h))
    (hapart : Meets Mailbox.step Event.Apart ⟨n, []⟩ es) (hdistinct : Meets Mailbox.step Event.Distinct ⟨n, []⟩ es) :
    ∀ s ∈ states Mailbox.step ⟨n, []⟩ es, ∀ params mcpClient now owner,
      h.process.resolveAgentId (strParam params "agent_id") mcpClient = .ok owner → s.Unexpired owner now →
      (unreadOnly params = false → (s.sentTo owner).length ≤ inboxLimit params →
        Delivers s owner (handleInbox h now params mcpClient s.node)) ∧
      (unreadOnly params = true → (ShowsUnread s owner (inboxLimit params) (handleInbox h now params mcpClient s.node) ↔
        s.PageOk owner (inboxLimit params))) := by
  intro s hs params mcpClient now owner howner hlive
  have hstart : ∀ agentId, Mailbox.Holds ⟨n, []⟩ agentId := by
    intro agentId
    have hnone : Mailbox.inbox ⟨n, []⟩ agentId = [] := by
      rw [inbox_eq, List.map_eq_nil_iff, List.filter_eq_nil_iff]
      exact fun r hr hns => hempty r hr agentId (of_decide_eq_true hns)
    unfold Mailbox.Holds
    rw [hnone]
    exact List.Perm.refl _
  have hrun : ∀ s ∈ states Mailbox.step ⟨n, []⟩ es, ∀ agentId, s.Holds agentId :=
    forall_states_of_meets (fun _ e hinv he => holds_step e hinv he) hstart (meets_both hapart hdistinct)
  exact ⟨delivers_of_holds (hrun s hs owner) howner hlive, showsUnread_iff howner hlive⟩

/-- A message to `bob`, from a client of that name. -/
def toBob (client title payload : String) (priority : ℤ) : Event host :=
  .notify (draw nine [client]) (.obj [("payload", .str payload), ("priority", .int priority), ("target_agent_id", .str "bob"),
    ("tier", .str "long"), ("title", .str title)]) (some client)

/-- A node without memories, after these events. -/
def Mailbox.after (es : List (Event host)) : Mailbox := es.foldl Mailbox.step ⟨.start .empty, []⟩

/-- The inbox of `bob`. -/
def bobsInbox : Json := .obj [("agent_id", .str "bob")]

def bobsFirst : Json := .obj [("agent_id", .str "bob"), ("limit", .int 1), ("unread_only", .bool true)]

/-- Two messages to `bob`, of which he has read the more urgent one. -/
def letters : List (Event host) :=
  [toBob "amy" "Urgent" "now" 9, toBob "carol" "Later" "then" 5, .read "amy" ⟨nine.text, "", ""⟩]

def halfRead : Mailbox := .after letters

theorem letters_delivered : (halfRead.sentTo "bob").map (fun m => m.title) = ["Urgent", "Later"] ∧
    Delivers halfRead "bob" (handleInbox host "" bobsInbox none halfRead.node) ∧
    (ShowsUnread halfRead "bob" 1 (handleInbox host "" bobsFirst none halfRead.node) ↔ halfRead.PageOk "bob" 1) := by
  have hlive : halfRead.Unexpired "bob" "" := by
    unfold Mailbox.Unexpired
    decide
  have hempty : ∀ r ∈ (Node.start .empty).db.memories, ∀ agentId, r.ns ≠ messagesNamespaceFor agentId :=
    fun r hr => absurd hr List.not_mem_nil
  have hdistinct : Meets Mailbox.step Event.Distinct ⟨Node.start .empty, []⟩ letters := by
    refine ⟨fun req _ m hm => absurd hm List.not_mem_nil, fun req hreq m hm => ?_, trivial, trivial⟩
    have hsent : (Mailbox.after [toBob "amy" "Urgent" "now" 9]).sent.map (fun m => m.title) = ["Urgent"] := by decide
    have htitle : m.title = "Urgent" := by
      have hmem := List.mem_map_of_mem (f := fun m : SentMessage => m.title) (List.mem_of_mem_filter hm)
      exact List.mem_singleton.mp (hsent ▸ hmem)
    have hlater : req.mem.title = "Later" := by
      have hmessage := congrArg (Option.map fun m => m.title) (notifyRequest_spec hreq).1
      exact (Option.some.inj hmessage).symm
    rw [htitle, hlater]
    decide
  have hall := run_delivers (Node.start .empty) hempty letters ⟨trivial, trivial, trivial, trivial⟩ hdistinct halfRead
    foldl_mem_states
  exact ⟨by decide, (hall bobsInbox none "" "bob" rfl hlive).1 rfl (by decide), (hall bobsFirst none "" "bob" rfl hlive).2 rfl⟩

/-- Two messages to `bob` with one title. -/
def pings : Mailbox := .after [toBob "amy" "Ping" "hello" 5, toBob "carol" "Ping" "bye" 5]

/-- The two messages become one entry, with the payload of the second and the sender of the first. And the page of the unread messages
ends after the read one. -/
theorem ping_misattributed :
    (pings.sentTo "bob").map (fun m => (m.payload, m.sender)) = [("hello", "ai:amy@host:pid-7"), ("bye", "ai:carol@host:pid-7")] ∧
    (handleInbox host "" bobsInbox none pings.node).map (fun j => (entries j).map shown) =
      .ok [(some "Ping", some "bye", some "ai:amy@host:pid-7")] ∧
    ¬Delivers pings "bob" (handleInbox host "" bobsInbox none pings.node) ∧
    (halfRead.unread "bob").map (fun m => m.title) = ["Later"] ∧
    (∃ j, handleInbox host "" bobsFirst none halfRead.node = .ok j ∧ entries j = []) ∧
    ¬ShowsUnread halfRead "bob" 1 (handleInbox host "" bobsFirst none halfRead.node) := by
  have hsent : (pings.sentTo "bob").map (fun m => (m.payload, m.sender)) =
      [("hello", "ai:amy@host:pid-7"), ("bye", "ai:carol@host:pid-7")] := by decide
  have hone : (handleInbox host "" bobsInbox none pings.node).map (fun j => (entries j).map shown) =
      .ok [(some "Ping", some "bye", some "ai:amy@host:pid-7")] := by decide +kernel
  have hunread : (halfRead.unread "bob").map (fun m => m.title) = ["Later"] := by decide
  have hlive : halfRead.Unexpired "bob" "" := by
    unfold Mailbox.Unexpired
    decide
  have hlimit : inboxLimit bobsFirst = 1 := by
    unfold inboxLimit natParam
    rw [show bobsFirst.get "limit" = some (.int 1) from rfl]
    norm_num
  have howner : host.process.resolveAgentId (strParam bobsFirst "agent_id") none = .ok "bob" := rfl
  obtain ⟨j, hj, hentries⟩ := handleInbox_of howner hlive
  have hsorted : (halfRead.inbox "bob").Pairwise fun a b => Db.listBefore a b := by decide
  have hnone : entries j = [] := by
    rw [hentries, hlimit, List.mergeSort_of_pairwise hsorted]
    decide
  refine ⟨hsent, hone, fun ⟨j', hj', hperm⟩ => ?_, hunread, ⟨j, hj, hnone⟩, fun ⟨j', hj', hlength, _⟩ => ?_⟩
  · rw [hj'] at hone
    have hshown : (entries j').map shown = [(some "Ping", some "bye", some "ai:amy@host:pid-7")] := Except.ok.inj hone
    have htwo := congrArg List.length hsent
    have hlength := hperm.length_eq
    rw [hshown, List.length_map] at hlength
    rw [List.length_map, ← hlength] at htwo
    exact absurd htwo (by decide)
  · cases hj.symm.trans hj'
    have htitles := congrArg List.length hunread
    rw [List.length_map] at htitles
    rw [hnone, htitles] at hlength
    exact absurd hlength (by decide)

end Mcp

end AiMemory

import AiMemory.Lib.IpAddr
import AiMemory.Lib.Uri
import AiMemory.Model.Validate

/-!
# The guard of webhook URLs

`validate_url_with` of `subscriptions.rs`: it cuts the host out of a URL by hand and refuses internal addresses. It does
not know of user info, so a colon in there passes for that of a port, and it does not know of IPv4-mapped addresses.

The host of a URL is that of RFC 3986 (`Rfc3986.Uri`), in lower case.
-/

namespace AiMemory

open IpAddr Rfc3986

namespace Webhooks

def isPrivate : Addr → Bool
  | .v4 a => a.isPrivate || a.isLinkLocal || a.isMulticast || a.isBroadcast || a.isUnspecified
  | .v6 a => a.isMulticast || a.isUnspecified || a.first &&& 0xfe00 = 0xfc00 || a.first &&& 0xffc0 = 0xfe80

def isLoopbackHostname (host : List Char) : Bool :=
  host = "localhost".toList || host = "localhost.localdomain".toList || host = []

def isLoopbackHost (host : List Char) : Bool := isLoopbackHostname host || (fromStr host).any Addr.isLoopback

/-- `split_once("://")`. -/
def splitScheme : List Char → Option (List Char × List Char)
  | [] => none
  | c :: cs =>
    if [':', '/', '/'].isPrefixOf (c :: cs) then some ([], cs.drop 2)
    else (splitScheme cs).map fun p => (c :: p.1, p.2)

/-- The host in `host_port`: what the brackets hold, or what stands before the last colon. -/
def cutHost (url : String) : List Char → Except String (List Char)
  | '[' :: stripped =>
    match Split.once ']' stripped with
    | some (host, _) => .ok host
    | none => .error s!"malformed IPv6 URL host: {url}"
  | hostPort => .ok ((Split.lastOnce ':' hostPort).elim hostPort Prod.fst)

/-- What `validate_url_with` asks of the scheme and the host it has cut out. -/
def checkHost (url : String) (allowLoopback : Bool) (scheme host : List Char) : Except String Unit := do
  let parsedIp := fromStr host
  let isLoopback := isLoopbackHostname host || parsedIp.any Addr.isLoopback
  Validate.bailIf (isLoopback && !allowLoopback)
    s!"webhook URL targets loopback address {url} — rejected by default (SSRF guard); set `[subscriptions] allow_loopback_webhooks = true` to opt in (testing / dev only)"
  Validate.bailIf (scheme = "http".toList && !isLoopback && parsedIp.all fun ip => !ip.isLoopback)
    s!"webhook URL must be https for non-loopback host: {url}"
  Validate.bailIf (parsedIp.any fun ip => isPrivate ip && !ip.isLoopback)
    s!"webhook URL targets private / link-local address: {url}"

def validateUrlWith (url : String) (allowLoopback : Bool) : Except String Unit :=
  match splitScheme (asciiLower url.toList) with
  | none => .error s!"webhook URL missing scheme: {url}"
  | some (scheme, rest) =>
    if scheme ≠ "https".toList ∧ scheme ≠ "http".toList then .error s!"webhook URL scheme must be http(s): {url}"
    else (cutHost url (rest.takeWhile fun c => c ∉ ['/', '?', '#'])).bind (checkHost url allowLoopback scheme)

/-! ## What the guard is for -/

def address (u : Uri) : Option Addr := fromStr u.lower.host.inner

/-- An address that no webhook may reach. -/
def Forbidden (allowLoopback : Bool) (ip : Addr) : Prop :=
  ip.canonical.isInternal = true ∨ ip.canonical.isLoopback = true ∧ allowLoopback = false

/-- The host is a loopback name or address. -/
def OnLoopback (u : Uri) : Prop :=
  isLoopbackHostname u.lower.host.inner = true ∨ ∃ ip, address u = some ip ∧ ip.canonical.isLoopback = true

/-- The host may be reached, under `http` on the loopback interface only. -/
structure Admissible (u : Uri) (allowLoopback : Bool) : Prop where
  address : ∀ ip, address u = some ip → ¬Forbidden allowLoopback ip
  scheme : u.lower.scheme = "http".toList → OnLoopback u

/-! ## What it misreads -/

/-- The text that passes for the host when user info has a colon, and no other follows it. -/
def decoy (u : Uri) : Option (List Char) :=
  u.lower.userinfo.bind fun info =>
    if u.lower.port = none ∧ ':' ∉ u.lower.host.text then (Split.lastOnce ':' info).map Prod.fst else none

/-- A host that the guard refuses under any scheme. -/
def Refused (allowLoopback : Bool) (host : List Char) : Prop :=
  isLoopbackHost host = true ∧ allowLoopback = false ∨ ∃ ip, fromStr host = some ip ∧ isPrivate ip = true

/-- The URLs that the guard misreads: without user info, `https` to an address mapped to a forbidden one; with user info,
`https` to a forbidden address, unless the decoy is refused, and `http` to any other host than the loopback interface
behind a loopback decoy that is allowed. -/
def Misread (u : Uri) (allowLoopback : Bool) : Prop :=
  match u.userinfo with
  | none => u.lower.scheme = "https".toList ∧ ∃ x a, address u = some (.v6 x) ∧ x.toIpv4Mapped = some a ∧
      Forbidden allowLoopback (.v4 a)
  | some _ =>
    u.lower.scheme = "https".toList ∧ (∃ ip, address u = some ip ∧ Forbidden allowLoopback ip) ∧
        (∀ d, decoy u = some d → ¬Refused allowLoopback d) ∨
      u.lower.scheme = "http".toList ∧ allowLoopback = true ∧ ¬OnLoopback u ∧
        ∃ d, decoy u = some d ∧ isLoopbackHost d = true

/-! ## The checks -/

variable {allowLoopback : Bool} {scheme host : List Char} {url : String} {ip : Addr} {u : Uri}

theorem isPrivate_loopback (h : ip.isLoopback = true) : isPrivate ip = false := by
  cases ip with
  | v4 a =>
    obtain ⟨a, b, c, d⟩ := a
    have ha : a = 127 := of_decide_eq_true h
    subst ha
    simp [isPrivate, V4.isPrivate, V4.isLinkLocal, V4.isMulticast, V4.isBroadcast, V4.isUnspecified]
  | v6 x =>
    have hseg : x.segments = [0, 0, 0, 0, 0, 0, 0, 1] := of_decide_eq_true h
    simp [isPrivate, V6.isMulticast, V6.isUnspecified, V6.first, hseg]

variable {x : V6} {a : V4}

theorem segments_of_mapped (h : x.toIpv4Mapped = some a) :
    ∃ ab cd, x.segments = [0, 0, 0, 0, 0, 0xffff, ab, cd] := by
  unfold V6.toIpv4Mapped at h
  split at h
  · next ab cd hseg => exact ⟨ab, cd, hseg⟩
  · cases h

theorem mapped_passes (h : x.toIpv4Mapped = some a) :
    isPrivate (.v6 x) = false ∧ (Addr.v6 x).isLoopback = false := by
  obtain ⟨ab, cd, hseg⟩ := segments_of_mapped h
  constructor
  · simp [isPrivate, V6.isMulticast, V6.isUnspecified, V6.first, hseg]
  · simp [Addr.isLoopback, V6.isLoopback, hseg]

theorem mapped_or_canonical (ip : Addr) :
    (∃ x a, ip = .v6 x ∧ x.toIpv4Mapped = some a) ∨ ip.canonical = ip := by
  cases ip with
  | v4 a => exact Or.inr rfl
  | v6 x =>
    cases hx : x.toIpv4Mapped with
    | none => exact Or.inr (by rw [Addr.canonical, hx]; rfl)
    | some a => exact Or.inl ⟨x, a, rfl, hx⟩

theorem canonical_mapped (h : x.toIpv4Mapped = some a) : (Addr.v6 x).canonical = .v4 a := by
  rw [Addr.canonical, h]
  rfl

theorem isPrivate_eq_isInternal (ip : Addr) : isPrivate ip = ip.isInternal := by
  cases ip with
  | v4 a => rfl
  | v6 x =>
    simp only [isPrivate, Addr.isInternal, V6.isUniqueLocal, V6.isLinkLocal]
    grind

theorem isLoopbackHost_iff : isLoopbackHost host = true ↔
    isLoopbackHostname host = true ∨ ∃ ip, fromStr host = some ip ∧ ip.isLoopback = true := by
  rw [isLoopbackHost, Bool.or_eq_true, Option.any_eq_true]

theorem checkHost_accepts : Accepts (checkHost url allowLoopback scheme host) ↔
    (scheme = "http".toList → isLoopbackHost host = true) ∧ ¬Refused allowLoopback host := by
  have hprivate : ((fromStr host).any fun ip => isPrivate ip && !ip.isLoopback) = true ↔
      ∃ ip, fromStr host = some ip ∧ isPrivate ip = true := by
    rw [Option.any_eq_true]
    refine exists_congr fun ip => and_congr_right fun _ => ?_
    rw [Bool.and_eq_true]
    refine and_iff_left_of_imp fun hp => ?_
    cases hl : ip.isLoopback with
    | false => rfl
    | true =>
      rw [isPrivate_loopback hl] at hp
      cases hp
  have hnone : isLoopbackHost host = false → ((fromStr host).all fun ip => !ip.isLoopback) = true := by
    intro h
    rw [isLoopbackHost, Bool.or_eq_false_iff] at h
    cases hip : fromStr host with
    | none => rfl
    | some ip =>
      rw [hip] at h
      simpa using h.2
  unfold checkHost Refused
  simp only [accepts_bind, accepts_bailIf]
  rw [← isLoopbackHost, ← hprivate]
  cases hl : isLoopbackHost host <;> cases allowLoopback <;> simp [hl, hnone]

/-! ## The cut -/

theorem splitScheme_text {t : List Char} (h : ':' ∉ scheme) :
    splitScheme (scheme ++ [':', '/', '/'] ++ t) = some (scheme, t) := by
  induction scheme with
  | nil => rfl
  | cons c s ih =>
    rw [List.mem_cons, not_or] at h
    have hno : [':', '/', '/'].isPrefixOf (c :: (s ++ [':', '/', '/'] ++ t)) = false := by
      simp [List.isPrefixOf, h.1]
    rw [List.cons_append, List.cons_append, splitScheme, hno, ih h.2]
    rfl

theorem cutHost_of_head {s : List Char} (h : s.head? ≠ some '[') :
    cutHost url s = .ok ((Split.lastOnce ':' s).elim s Prod.fst) := by
  unfold cutHost
  split
  · exact absurd rfl h
  · rfl

theorem colon_not_mem_name {t : List Char} (h : (Host.name t).Wf) : ':' ∉ t := fun hmem => h ':' hmem (by decide)

/-- Without user info the guard cuts out the host. -/
theorem cutHost_plain {v : Uri} (hinfo : v.userinfo = none) : cutHost url v.authority = .ok v.host.inner := by
  have hok := v.host_ok
  unfold Uri.authority
  rw [hinfo, Option.elim_none, List.nil_append]
  cases hh : v.host with
  | bracketed body =>
    rw [hh] at hok
    have hbody : ']' ∉ body := fun hmem => hok ']' hmem (by decide)
    have hcut : Split.once ']' (body ++ [']'] ++ v.port.elim [] (':' :: ·)) = some (body, v.port.elim [] (':' :: ·)) := by
      rw [List.append_assoc]
      exact Split.once_append hbody
    show cutHost url ('[' :: (body ++ [']'] ++ v.port.elim [] (':' :: ·))) = .ok body
    rw [cutHost, hcut]
  | name t =>
    rw [hh] at hok
    have hcolon := colon_not_mem_name hok
    have hhead : (t ++ v.port.elim [] (':' :: ·)).head? ≠ some '[' := by
      cases t with
      | nil => cases v.port <;> simp
      | cons c cs =>
        rintro ⟨⟩
        exact hok '[' List.mem_cons_self (by decide)
    show cutHost url (t ++ v.port.elim [] (':' :: ·)) = .ok t
    rw [cutHost_of_head hhead]
    cases hp : v.port with
    | none =>
      show Except.ok ((Split.lastOnce ':' (t ++ [])).elim (t ++ []) Prod.fst) = _
      rw [List.append_nil, Split.lastOnce_eq_none hcolon]
      rfl
    | some p =>
      have hport : ':' ∉ p := fun hmem => Uri.port_free hp hmem (by decide)
      show Except.ok ((Split.lastOnce ':' (t ++ ':' :: p)).elim (t ++ ':' :: p) Prod.fst) = _
      rw [Split.lastOnce_append hport]
      rfl

variable {info : List Char}

/-- With user info it cuts out the decoy, or a text with an `@`. -/
theorem cutHost_info (hinfo : u.lower.userinfo = some info) :
    (∃ d, decoy u = some d ∧ cutHost url u.lower.authority = .ok d) ∨
      decoy u = none ∧ ∃ h, cutHost url u.lower.authority = .ok h ∧ '@' ∈ h := by
  have hfree := u.lower.userinfo_ok info hinfo
  obtain ⟨tail, htail⟩ : ∃ tail, tail = u.lower.host.text ++ u.lower.port.elim [] (':' :: ·) := ⟨_, rfl⟩
  have hauth : u.lower.authority = info ++ '@' :: tail := by
    rw [Uri.authority, hinfo, htail]
    simp
  have hhead : (info ++ '@' :: tail).head? ≠ some '[' := by
    cases info with
    | nil => simp
    | cons c cs =>
      rintro ⟨⟩
      exact hfree '[' List.mem_cons_self (by decide)
  have hdecoy : decoy u = if ':' ∈ tail then none else (Split.lastOnce ':' info).map Prod.fst := by
    have hcolon : ':' ∈ tail ↔ ¬(u.lower.port = none ∧ ':' ∉ u.lower.host.text) := by
      rw [htail, List.mem_append]
      cases u.lower.port <;> simp
    rw [decoy, hinfo, Option.bind_some]
    by_cases h : ':' ∈ tail
    · rw [if_pos h, if_neg (hcolon.mp h)]
    · rw [if_neg h, if_pos (not_not.mp fun hn => h (hcolon.mpr hn))]
  rw [hauth, cutHost_of_head hhead, hdecoy]
  by_cases htl : ':' ∈ tail
  · -- the last colon is that of a port or an address
    obtain ⟨a, b, rfl, hb, -⟩ := Split.exists_lastOnce htl
    have hassoc : info ++ '@' :: (a ++ ':' :: b) = (info ++ '@' :: a) ++ ':' :: b := by simp
    rw [if_pos htl, hassoc, Split.lastOnce_append hb]
    exact Or.inr ⟨rfl, _, rfl, by simp⟩
  · rw [if_neg htl]
    by_cases hin : ':' ∈ info
    · -- the last colon is in user info
      obtain ⟨a, b, rfl, hb, hlast⟩ := Split.exists_lastOnce hin
      have hassoc : a ++ ':' :: b ++ '@' :: tail = a ++ ':' :: (b ++ '@' :: tail) := by simp
      have hnone : ':' ∉ b ++ '@' :: tail := by simp [hb, htl]
      rw [hlast, hassoc, Split.lastOnce_append hnone]
      exact Or.inl ⟨a, rfl, rfl⟩
    · have hnone : ':' ∉ info ++ '@' :: tail := by simp [hin, htl]
      rw [Split.lastOnce_eq_none hin, Split.lastOnce_eq_none hnone]
      exact Or.inr ⟨rfl, _, rfl, by simp⟩

theorem foreign_at : Foreign '@' := ⟨by decide, by decide, by decide, by decide⟩

/-- A text with an `@` is neither refused nor on the loopback interface. -/
theorem at_passes (h : '@' ∈ host) : isLoopbackHost host = false ∧ ¬Refused allowLoopback host := by
  have hnone := fromStr_eq_none foreign_at h
  have hname : isLoopbackHostname host = false := by
    rw [← Bool.not_eq_true]
    intro hname
    rw [isLoopbackHostname, Bool.or_eq_true, Bool.or_eq_true, decide_eq_true_eq, decide_eq_true_eq, decide_eq_true_eq]
      at hname
    rcases hname with (rfl | rfl) | rfl
    · revert h
      decide
    · revert h
      decide
    · cases h
  have hloop : isLoopbackHost host = false := by
    rw [isLoopbackHost, hname, hnone]
    rfl
  refine ⟨hloop, ?_⟩
  rintro (⟨hl, -⟩ | ⟨ip, hip, -⟩)
  · rw [hloop] at hl
    cases hl
  · rw [hnone] at hip
    cases hip

theorem validateUrlWith_accepts : Accepts (validateUrlWith (String.ofList u.text) allowLoopback) ↔
    (u.lower.scheme = "https".toList ∨ u.lower.scheme = "http".toList) ∧
      ∃ h, cutHost (String.ofList u.text) u.lower.authority = .ok h ∧
        (u.lower.scheme = "http".toList → isLoopbackHost h = true) ∧ ¬Refused allowLoopback h := by
  have hsplit : splitScheme (asciiLower (String.ofList u.text).toList) =
      some (u.lower.scheme, u.lower.authority ++ u.lower.rest) := by
    rw [String.toList_ofList, ← Uri.text_lower]
    exact splitScheme_text u.lower.scheme_ok
  rw [validateUrlWith, hsplit]
  dsimp only
  by_cases hs : u.lower.scheme ≠ "https".toList ∧ u.lower.scheme ≠ "http".toList
  · rw [if_pos hs]
    exact iff_of_false (fun h => by cases h) fun h => h.1.elim hs.1 hs.2
  · rw [if_neg hs, Uri.takeWhile_authority]
    have hs' : u.lower.scheme = "https".toList ∨ u.lower.scheme = "http".toList := by tauto
    rw [and_iff_right hs']
    cases hcut : cutHost (String.ofList u.text) u.lower.authority with
    | error e => exact iff_of_false (fun h => by cases h) (fun h => by obtain ⟨x, hx, -⟩ := h; cases hx)
    | ok h =>
      refine checkHost_accepts.trans ⟨fun hall => ⟨h, rfl, hall⟩, ?_⟩
      rintro ⟨x, hx, hall⟩
      cases hx
      exact hall

/-! ## When the guard keeps internal addresses out -/

theorem fromStr_hostname (h : isLoopbackHostname host = true) : fromStr host = none := by
  rw [isLoopbackHostname, Bool.or_eq_true, Bool.or_eq_true, decide_eq_true_eq, decide_eq_true_eq, decide_eq_true_eq] at h
  rcases h with (rfl | rfl) | rfl <;> decide

theorem not_forbidden_loopback (h : ip.canonical.isLoopback = true) : ¬Forbidden true ip := by
  rintro (hint | ⟨-, ⟨⟩⟩)
  rw [← isPrivate_eq_isInternal, isPrivate_loopback h] at hint
  cases hint

theorem admissible_of_loopback (h : OnLoopback u) : Admissible u true := by
  refine ⟨fun ip hip => ?_, fun _ => h⟩
  rcases h with hname | ⟨ip', hip', hl⟩
  · rw [address, fromStr_hostname hname] at hip
    cases hip
  · rw [hip] at hip'
    cases hip'
    exact not_forbidden_loopback hl

theorem admissible_https (h : u.lower.scheme = "https".toList) :
    Admissible u allowLoopback ↔ ∀ ip, address u = some ip → ¬Forbidden allowLoopback ip :=
  ⟨Admissible.address, fun hall => ⟨hall, fun hhttp => absurd (h.symm.trans hhttp) (by decide)⟩⟩

theorem not_forbidden_of_passes (hip : fromStr host = some ip) (hcan : ip.canonical = ip)
    (h : ¬Refused allowLoopback host) : ¬Forbidden allowLoopback ip := by
  rw [Forbidden, hcan]
  rintro (hint | ⟨hl, hoff⟩)
  · exact h (Or.inr ⟨ip, hip, isPrivate_eq_isInternal ip ▸ hint⟩)
  · exact h (Or.inl ⟨isLoopbackHost_iff.mpr (Or.inr ⟨ip, hip, hl⟩), hoff⟩)

theorem isLoopbackHost_mapped (hip : fromStr host = some (.v6 x)) (hx : x.toIpv4Mapped = some a) :
    isLoopbackHost host = false := by
  rw [← Bool.not_eq_true, isLoopbackHost_iff]
  rintro (hname | ⟨ip, hip', hl⟩)
  · rw [fromStr_hostname hname] at hip
    cases hip
  · rw [hip] at hip'
    cases hip'
    rw [(mapped_passes hx).2] at hl
    cases hl

theorem not_refused_mapped (hip : fromStr host = some (.v6 x)) (hx : x.toIpv4Mapped = some a) :
    ¬Refused allowLoopback host := by
  rintro (⟨hl, -⟩ | ⟨ip, hip', hp⟩)
  · rw [isLoopbackHost_mapped hip hx] at hl
    cases hl
  · rw [hip] at hip'
    cases hip'
    rw [(mapped_passes hx).1] at hp
    cases hp

theorem refused_loopback (h : isLoopbackHost host = true) : Refused allowLoopback host ↔ allowLoopback = false := by
  refine ⟨?_, fun hoff => Or.inl ⟨h, hoff⟩⟩
  rintro (⟨-, hoff⟩ | ⟨ip, hip, hp⟩)
  · exact hoff
  · rcases isLoopbackHost_iff.mp h with hname | ⟨ip', hip', hl⟩
    · rw [fromStr_hostname hname] at hip
      cases hip
    · rw [hip] at hip'
      cases hip'
      rw [isPrivate_loopback hl] at hp
      cases hp

theorem onLoopback_of_isLoopbackHost (h : isLoopbackHost u.lower.host.inner = true) : OnLoopback u := by
  rcases isLoopbackHost_iff.mp h with hname | ⟨ip, hip, hl⟩
  · exact Or.inl hname
  · refine Or.inr ⟨ip, hip, ?_⟩
    rcases mapped_or_canonical ip with ⟨x, a, rfl, hx⟩ | hcan
    · rw [(mapped_passes hx).2] at hl
      cases hl
    · rwa [hcan]

theorem guard_plain (hinfo : u.userinfo = none) :
    (Accepts (validateUrlWith (String.ofList u.text) allowLoopback) → Admissible u allowLoopback) ↔
      ¬(u.lower.scheme = "https".toList ∧ ∃ x a, address u = some (.v6 x) ∧ x.toIpv4Mapped = some a ∧
        Forbidden allowLoopback (.v4 a)) := by
  have hcut : cutHost (String.ofList u.text) u.lower.authority = .ok u.lower.host.inner :=
    cutHost_plain (congrArg (Option.map asciiLower) hinfo)
  rw [validateUrlWith_accepts, hcut]
  constructor
  · rintro hadm ⟨hs, x, a, hip, hx, hforbidden⟩
    have haccepted := hadm
      ⟨Or.inl hs, _, rfl, fun hhttp => absurd (hs.symm.trans hhttp) (by decide), not_refused_mapped hip hx⟩
    refine haccepted.address _ hip ?_
    rw [Forbidden, canonical_mapped hx]
    exact hforbidden
  · rintro hmis ⟨hs, h, ⟨⟩, hhttp, hpass⟩
    refine ⟨fun ip hip => ?_, fun hs' => onLoopback_of_isLoopbackHost (hhttp hs')⟩
    rcases mapped_or_canonical ip with ⟨x, a, rfl, hx⟩ | hcan
    · rcases hs with hs | hs
      · intro hforbidden
        rw [Forbidden, canonical_mapped hx] at hforbidden
        exact hmis ⟨hs, x, a, hip, hx, hforbidden⟩
      · have hl := hhttp hs
        rw [isLoopbackHost_mapped hip hx] at hl
        cases hl
    · exact not_forbidden_of_passes hip hcan hpass

theorem accepts_info (hinfo : u.userinfo = some info) :
    Accepts (validateUrlWith (String.ofList u.text) allowLoopback) ↔
      u.lower.scheme = "https".toList ∧ (∀ d, decoy u = some d → ¬Refused allowLoopback d) ∨
        u.lower.scheme = "http".toList ∧ ∃ d, decoy u = some d ∧ isLoopbackHost d = true ∧ allowLoopback = true := by
  rw [validateUrlWith_accepts]
  rcases cutHost_info (congrArg (Option.map asciiLower) hinfo) with ⟨d, hd, hcut⟩ | ⟨hd, h, hcut, hat⟩
  · rw [hcut, hd]
    constructor
    · rintro ⟨hs, h, ⟨⟩, hhttp, hpass⟩
      rcases hs with hs | hs
      · exact Or.inl ⟨hs, by rintro d ⟨⟩; exact hpass⟩
      · refine Or.inr ⟨hs, _, rfl, hhttp hs, ?_⟩
        rwa [refused_loopback (hhttp hs), Bool.not_eq_false] at hpass
    · rintro (⟨hs, hpass⟩ | ⟨hs, h, ⟨⟩, hl, hon⟩)
      · exact ⟨Or.inl hs, d, rfl, fun hhttp => absurd (hs.symm.trans hhttp) (by decide), hpass d rfl⟩
      · refine ⟨Or.inr hs, d, rfl, fun _ => hl, ?_⟩
        rw [refused_loopback hl, hon]
        decide
  · rw [hcut, hd]
    have hpasses : isLoopbackHost h = false ∧ ¬Refused allowLoopback h := at_passes hat
    constructor
    · rintro ⟨hs | hs, h', ⟨⟩, hhttp, -⟩
      · exact Or.inl ⟨hs, fun d hd => by cases hd⟩
      · rw [hhttp hs] at hpasses
        cases hpasses.1
    · rintro (⟨hs, -⟩ | ⟨-, d, hd, -⟩)
      · exact ⟨Or.inl hs, h, rfl, fun hhttp => absurd (hs.symm.trans hhttp) (by decide), hpasses.2⟩
      · cases hd

/-- With user info: forbidden addresses behind anything but a refused decoy, and plain `http` behind a loopback one. -/
theorem guard_info (hinfo : u.userinfo = some info) :
    (Accepts (validateUrlWith (String.ofList u.text) allowLoopback) → Admissible u allowLoopback) ↔
      ¬(u.lower.scheme = "https".toList ∧ (∃ ip, address u = some ip ∧ Forbidden allowLoopback ip) ∧
          (∀ d, decoy u = some d → ¬Refused allowLoopback d) ∨
        u.lower.scheme = "http".toList ∧ allowLoopback = true ∧ ¬OnLoopback u ∧
          ∃ d, decoy u = some d ∧ isLoopbackHost d = true) := by
  rw [accepts_info hinfo]
  constructor
  · rintro hadm (⟨hs, ⟨ip, hip, hforbidden⟩, hpass⟩ | ⟨hs, hon, hoff, d, hd, hl⟩)
    · exact (hadm (Or.inl ⟨hs, hpass⟩)).address ip hip hforbidden
    · exact hoff ((hadm (Or.inr ⟨hs, d, hd, hl, hon⟩)).scheme hs)
  · rintro hmis (⟨hs, hpass⟩ | ⟨hs, d, hd, hl, hon⟩)
    · exact (admissible_https hs).mpr fun ip hip hforbidden => hmis (Or.inl ⟨hs, ⟨ip, hip, hforbidden⟩, hpass⟩)
    · subst hon
      exact admissible_of_loopback (not_not.mp fun hoff => hmis (Or.inr ⟨hs, rfl, hoff, d, hd, hl⟩))

/-- The guard keeps internal addresses out of exactly the URLs that it does not misread. -/
theorem admissible_iff_not_misread (u : Uri) (allowLoopback : Bool) :
    (Accepts (validateUrlWith (String.ofList u.text) allowLoopback) → Admissible u allowLoopback) ↔
      ¬Misread u allowLoopback := by
  unfold Misread
  cases hinfo : u.userinfo with
  | none => exact guard_plain hinfo
  | some info => exact guard_info hinfo

example : Accepts (validateUrlWith "https://[::ffff:10.0.0.1]/" false) := by decide

/-- `https://user@10.0.0.1/`. -/
def withUser : Uri where
  scheme := "https".toList
  userinfo := some "user".toList
  host := .name "10.0.0.1".toList
  port := none
  rest := "/".toList
  scheme_ok := by decide
  userinfo_ok := by
    rintro u ⟨⟩
    simp
  host_ok := show ∀ c ∈ "10.0.0.1".toList, c ∉ ['/', '?', '#', '[', ']', '@', ':'] by simp
  port_ok := fun p hp => by cases hp
  rest_ok := by
    rintro c ⟨⟩
    decide

/-- The guard accepts a URL to a private address. -/
theorem withUser_accepted : String.ofList withUser.text = "https://user@10.0.0.1/" ∧
    Accepts (validateUrlWith "https://user@10.0.0.1/" false) ∧ address withUser = some (.v4 ⟨10, 0, 0, 1⟩) ∧
      ¬Admissible withUser false := by
  have haddr : address withUser = some (.v4 ⟨10, 0, 0, 1⟩) := by decide
  exact ⟨by decide, by decide, haddr, fun h => h.address _ haddr (Or.inl (by decide))⟩

end Webhooks

end AiMemory

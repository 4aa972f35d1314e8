import AiMemory.Audit.Chain

/-!
# Tampering with a verified log

The last hash of a verified log determines its events (`events_eq_of_verified`): hashes are of the whole event, its link
included, so the argument runs backwards along the chain.
-/

namespace AiMemory.Audit

open HashChain

/-- The event that is hashed. -/
def AuditEvent.unhashed (ev : AuditEvent) : AuditEvent := { ev with selfHash := "" }

/-- On the given events SHA-256 is injective and never the hash of the chain head, and `serde_json` is injective. -/
structure CollisionFree (K : Crates) (evs : List AuditEvent) : Prop where
  sha : ∀ ev ∈ evs, ∀ ev' ∈ evs, K.sha256Hex (canonicalJsonForHash K ev) = K.sha256Hex (canonicalJsonForHash K ev') →
    canonicalJsonForHash K ev = canonicalJsonForHash K ev'
  head : ∀ ev ∈ evs, K.sha256Hex (canonicalJsonForHash K ev) ≠ chainHeadPrevHash
  json : ∀ ev ∈ evs, ∀ ev' ∈ evs, K.toJson ev.unhashed = K.toJson ev'.unhashed → ev.unhashed = ev'.unhashed

variable {K : Crates} {evs : List AuditEvent} {ev ev' : AuditEvent} {log log' : String}

theorem eq_of_unhashed_eq (h : ev.unhashed = ev'.unhashed) (hself : ev.selfHash = ev'.selfHash) : ev = ev' := by
  obtain ⟨⟩ := ev
  obtain ⟨⟩ := ev'
  simp only [AuditEvent.unhashed, AuditEvent.mk.injEq] at h hself ⊢
  tauto

theorem CollisionFree.eq_of_selfHash_eq (h : CollisionFree K evs) (hev : ev ∈ evs) (hev' : ev' ∈ evs)
    (hself : computeSelfHash K ev = ev.selfHash) (hself' : computeSelfHash K ev' = ev'.selfHash)
    (heq : ev.selfHash = ev'.selfHash) : ev = ev' := by
  have hhash : computeSelfHash K ev = computeSelfHash K ev' := by rw [hself, hself', heq]
  have hcanonical : canonicalJsonForHash K ev = canonicalJsonForHash K ev' := h.sha ev hev ev' hev' hhash
  exact eq_of_unhashed_eq (h.json ev hev ev' hev' hcanonical) heq

/-- A verified log with the last hash of another verified log has its events; a log with that last hash and any other
events is not verified. -/
theorem events_eq_of_verified (hfree : CollisionFree K (events K log ++ events K log'))
    (hlog : (verifyChainFromReader K log).firstFailure = none)
    (htail : readChainTail K (some log') = readChainTail K (some log)) :
    ((verifyChainFromReader K log').firstFailure = none → events K log' = events K log) ∧
      (events K log' ≠ events K log → (verifyChainFromReader K log').firstFailure ≠ none) := by
  have heq : (verifyChainFromReader K log').firstFailure = none → events K log' = events K log := by
    intro hlog'
    obtain ⟨-, hlinked, -, hself⟩ := verifyChainFromReader_ok.mp hlog
    obtain ⟨-, hlinked', -, hself'⟩ := verifyChainFromReader_ok.mp hlog'
    have hhead : ∀ ev ∈ events K log, ev.selfHash ≠ chainHeadPrevHash := fun ev hev =>
      hself ev hev ▸ hfree.head ev (List.mem_append_left _ hev)
    have hhead' : ∀ ev ∈ events K log', ev.selfHash ≠ chainHeadPrevHash := fun ev hev =>
      hself' ev hev ▸ hfree.head ev (List.mem_append_right _ hev)
    have hinj : ∀ ev' ∈ events K log', ∀ ev ∈ events K log, ev'.selfHash = ev.selfHash → ev' = ev :=
      fun ev' hev' ev hev => hfree.eq_of_selfHash_eq (List.mem_append_right _ hev') (List.mem_append_left _ hev)
        (hself' ev' hev') (hself ev hev)
    have htip : chainTip (events K log') = chainTip (events K log) := by
      rw [chainTip, chainTip, tip_eq, tip_eq, ← readChainTail_some, ← readChainTail_some, htail]
    exact eq_of_tip_eq hinj hhead' hhead hlinked' hlinked htip
  exact ⟨heq, fun hne hlog' => hne (heq hlog')⟩

theorem collisionFree_sample : CollisionFree sampleCrates (sampleTable.map withHash) where
  sha := by
    have hdistinct : ∀ x ∈ sampleTable, ∀ y ∈ sampleTable, x.2 = y.2 → x = y := by decide
    simp only [List.forall_mem_map]
    intro x hx y hy h
    have hxy : x.2 = y.2 := (hashed_sample x hx).symm.trans (h.trans (hashed_sample y hy))
    rw [hdistinct x hx y hy hxy]
  head := by
    have hhead : ∀ x ∈ sampleTable, x.2 ≠ chainHeadPrevHash := by decide
    simp only [List.forall_mem_map]
    exact fun x hx h => hhead x hx ((hashed_sample x hx).symm.trans h)
  json := by
    simp only [List.forall_mem_map]
    intro x hx y hy h
    have htext : jsonText (withHash x).unhashed = jsonText (withHash y).unhashed := String.ofList_injective h
    rw [AuditEvent.unhashed, AuditEvent.unhashed, clear_sample hx, clear_sample hy] at htext
    rw [List.inj_on_of_nodup_map nodup_unhashed_sample hx hy htext]

theorem CollisionFree.mono {evs evs' : List AuditEvent} (h : CollisionFree K evs') (hsub : evs ⊆ evs') :
    CollisionFree K evs where
  sha := fun ev hev ev' hev' => h.sha ev (hsub hev) ev' (hsub hev')
  head := fun ev hev => h.head ev (hsub hev)
  json := fun ev hev ev' hev' => h.json ev (hsub hev) ev' (hsub hev')

def sampleLog : String := render sampleCrates [withHash storeEntry, withHash updateEntry]

def truncatedLog : String := render sampleCrates [withHash updateEntry]

theorem events_sampleLog : events sampleCrates sampleLog = [withHash storeEntry, withHash updateEntry] :=
  events_render (readable_of_subset sampleLog_subset)

theorem events_truncatedLog : events sampleCrates truncatedLog = [withHash updateEntry] :=
  events_render (readable_of_subset (List.subset_of_cons_subset sampleLog_subset))

theorem truncatedLog_fails : (verifyChainFromReader sampleCrates truncatedLog).firstFailure ≠ none := by
  have hfree : CollisionFree sampleCrates (events sampleCrates sampleLog ++ events sampleCrates truncatedLog) := by
    rw [events_sampleLog, events_truncatedLog]
    exact collisionFree_sample.mono (by simp [sampleTable])
  have hlog : (verifyChainFromReader sampleCrates sampleLog).firstFailure = none := by
    rw [verifyChainFromReader_ok, events_sampleLog]
    exact ⟨legible_render (readable_of_subset sampleLog_subset), by decide, by decide,
      hashed_of_subset sampleLog_subset⟩
  have htail : readChainTail sampleCrates (some truncatedLog) = readChainTail sampleCrates (some sampleLog) := by
    rw [readChainTail_some, readChainTail_some, events_sampleLog, events_truncatedLog]
    rfl
  have hne : events sampleCrates truncatedLog ≠ events sampleCrates sampleLog := by
    rw [events_sampleLog, events_truncatedLog]
    decide
  exact (events_eq_of_verified hfree hlog htail).2 hne

end AiMemory.Audit

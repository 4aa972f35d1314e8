import AiMemory.Mcp.Panics
import Mathlib.Data.List.Destutter

/-!
# Tool profiles and the allowlist

`profile.rs`: a profile is a set of tool families, read from a name or from a list of names and families. What is read is
sorted and has no duplicates, so that the order and the repeats of the names do not matter as long as the same ones stand
before a `full`, and the label of a profile reads back as that profile (`parse_spec`).

`McpConfig::allowlist_decision` of `config.rs`: the rule with the longest key that starts the id of the agent decides,
in whatever order the table is walked (`allowlistDecision_spec`).
-/

namespace AiMemory.Mcp

deriving instance DecidableEq for Family

/-- The place of a family in the declaration, by which families are compared. -/
def Family.place : Family → ℕ
  | core => 0
  | lifecycle => 1
  | graph => 2
  | governance => 3
  | power => 4
  | meta' => 5
  | archive => 6
  | other => 7

theorem Family.place_injective : Function.Injective Family.place := by
  intro f g h
  cases f <;> cases g <;> first | rfl | cases h

theorem Family.mem_all (f : Family) : f ∈ Family.all := by cases f <;> decide

/-! ## Profiles -/

structure Profile where
  families : List Family
  deriving DecidableEq

namespace Profile

def core : Profile := ⟨[.core]⟩

def graph : Profile := ⟨[.core, .graph]⟩

def admin : Profile := ⟨[.core, .lifecycle, .governance]⟩

def power : Profile := ⟨[.core, .power]⟩

def full : Profile := ⟨Family.all⟩

def named : String → Option Profile
  | "core" => some core
  | "graph" => some graph
  | "admin" => some admin
  | "power" => some power
  | "full" => some full
  | _ => none

def includes (p : Profile) (f : Family) : Bool := f ∈ p.families

/-- `push`, unless the family is there. -/
def push (families : List Family) (f : Family) : List Family := if f ∈ families then families else families ++ [f]

def merge (dst src : List Family) : List Family := src.foldl push dst

/-- What follows the loop over the tokens: `core` in front, `sort_unstable`, `dedup`. -/
def resolved (families : List Family) : Profile :=
  let families := if .core ∈ families then families else .core :: families
  ⟨(families.insertionSort fun f g => f.place ≤ g.place).destutter (· ≠ ·)⟩

def parseTokens (families : List Family) : List (List Char) → Except String Profile
  | [] => .ok (resolved families)
  | rawToken :: rest =>
    let token := String.ofList (Validate.trim (String.ofList rawToken))
    if token = "" then parseTokens families rest
    else if token = "full" then .ok full
    else
      match named token with
      | some p => parseTokens (merge families p.families) rest
      | none =>
        match Family.fromStr token with
        | .ok f => parseTokens (push families f) rest
        | .error e => .error e

/-- `Profile::parse`, with the texts of its errors. -/
def parse (s : String) : Except String Profile :=
  let trimmed := Validate.trim s
  if trimmed = [] then .ok core
  else if trimmed.any Char.isUpper then
    .error ("profile '" ++ String.ofList trimmed ++
      "' contains uppercase letters; profile vocabulary is case-sensitive lowercase (e.g. 'core', not 'Core')")
  else
    match named (String.ofList trimmed) with
    | some p => .ok p
    | none => parseTokens [] (trimmed.splitOn ',')

/-- `profile_summary_label`. -/
def summaryLabel (p : Profile) : String :=
  if p = full then "full"
  else if p = core then "core"
  else if p = graph then "graph"
  else if p = admin then "admin"
  else if p = power then "power"
  else ",".intercalate (p.families.map Family.name)

/-! ## What is read -/

/-- In order of declaration, without duplicates, with `core`. -/
structure Canonical (p : Profile) : Prop where
  sorted : p.families = Family.all.filter fun f => f ∈ p.families
  core : .core ∈ p.families

/-- What a token stands for: a profile before a family of that name. -/
def vocabulary (token : String) : Option (List Family) :=
  match named token with
  | some p => some p.families
  | none => (Family.fromStr token).toOption.map fun f => [f]

section Lists

variable {l l' dst src : List Family} {f g : Family}

@[simp] theorem mem_push : g ∈ push l f ↔ g ∈ l ∨ g = f := by
  unfold push
  split
  · next h =>
    refine ⟨.inl, fun hg => hg.elim id fun heq => ?_⟩
    rw [heq]
    exact h
  · rw [List.mem_append, List.mem_singleton]

theorem nodup_push (h : l.Nodup) : (push l f).Nodup := by
  unfold push
  split
  · exact h
  · next hf =>
    refine List.nodup_append.mpr ⟨h, List.nodup_singleton f, fun a ha b hb => ?_⟩
    rw [List.mem_singleton.mp hb]
    exact fun heq => hf (heq ▸ ha)

@[simp] theorem mem_merge : g ∈ merge dst src ↔ g ∈ dst ∨ g ∈ src := by
  unfold merge
  induction src generalizing dst with
  | nil => simp
  | cons f src ih => rw [List.foldl_cons, ih, mem_push, List.mem_cons, or_assoc]

theorem nodup_merge (h : dst.Nodup) : (merge dst src).Nodup := by
  unfold merge
  induction src generalizing dst with
  | nil => exact h
  | cons f src ih => exact ih (nodup_push h)

theorem eq_filter_of_pairwise (h : l.Pairwise fun f g => f.place < g.place) : l = Family.all.filter fun f => f ∈ l := by
  have hall : (Family.all.filter fun f => f ∈ l).Pairwise fun f g => f.place < g.place :=
    List.Pairwise.filter _ (by decide)
  refine List.Perm.eq_of_pairwise (fun f g _ _ hfg hgf => absurd (hfg.trans hgf) (lt_irrefl _)) h hall ?_
  refine (List.perm_ext_iff_of_nodup (h.imp fun hfg heq => ?_) (hall.imp fun hfg heq => ?_)).mpr fun f => ?_
  · rw [heq] at hfg
    exact lt_irrefl _ hfg
  · rw [heq] at hfg
    exact lt_irrefl _ hfg
  · rw [List.mem_filter, decide_eq_true_eq]
    exact ⟨fun hf => ⟨f.mem_all, hf⟩, fun hf => hf.2⟩

theorem pairwise_sorted (h : l.Nodup) :
    (l.insertionSort fun f g => f.place ≤ g.place).Pairwise fun f g => f.place < g.place := by
  have hle := List.pairwise_insertionSort (fun f g : Family => f.place ≤ g.place) l
  have hne : (l.insertionSort fun f g => f.place ≤ g.place).Nodup := (List.perm_insertionSort _ l).nodup_iff.mpr h
  exact hle.imp₂ (fun f g hfg hne => lt_of_le_of_ne hfg fun heq => hne (Family.place_injective heq)) hne

theorem resolved_families (h : l.Nodup) :
    (resolved l).families =
      (if .core ∈ l then l else .core :: l).insertionSort fun f g => f.place ≤ g.place := by
  have hnodup : (if Family.core ∈ l then l else .core :: l).Nodup := by
    split
    · exact h
    · next hcore => exact List.nodup_cons.mpr ⟨hcore, h⟩
  refine List.destutter_of_isChain _ _ (List.Pairwise.isChain ?_)
  refine (pairwise_sorted hnodup).imp fun hlt heq => ?_
  rw [heq] at hlt
  exact lt_irrefl _ hlt

theorem mem_resolved (h : l.Nodup) : f ∈ (resolved l).families ↔ f = .core ∨ f ∈ l := by
  rw [resolved_families h, List.mem_insertionSort]
  split
  · next hcore =>
    refine ⟨.inr, fun hf => hf.elim (fun heq => ?_) id⟩
    rw [heq]
    exact hcore
  · exact List.mem_cons

theorem canonical_resolved (h : l.Nodup) : (resolved l).Canonical where
  sorted := by
    refine eq_filter_of_pairwise ?_
    rw [resolved_families h]
    refine pairwise_sorted ?_
    split
    · exact h
    · next hcore => exact List.nodup_cons.mpr ⟨hcore, h⟩
  core := (mem_resolved h).mpr (.inl rfl)

theorem Canonical.ext {p q : Profile} (hp : p.Canonical) (hq : q.Canonical) (h : ∀ f, f ∈ p.families ↔ f ∈ q.families) :
    p = q := by
  have hfamilies : p.families = q.families := by
    rw [hp.sorted, hq.sorted]
    exact List.filter_congr fun f _ => decide_eq_decide.mpr (h f)
  cases p
  cases q
  exact congrArg Profile.mk hfamilies

end Lists

/-! ## Tokens -/

section Tokens

variable {families : List Family} {raw : List (List Char)} {p : Profile} {f : Family} {token : String}

def tokens (raw : List (List Char)) : List String :=
  (raw.map fun t => String.ofList (Validate.trim (String.ofList t))).filter (· ≠ "")

/-- The tokens before the first `full`. -/
def heeded (raw : List (List Char)) : List String := (tokens raw).takeWhile (· ≠ "full")

/-- What a list is read as: the families of the tokens that are heeded, or every family. -/
structure Reading (families : List Family) (raw : List (List Char)) (p : Profile) : Prop where
  known : ∀ t ∈ heeded raw, (vocabulary t).isSome
  canonical : p.Canonical
  members : ∀ f, f ∈ p.families ↔ f = .core ∨ f ∈ families ∨ "full" ∈ tokens raw ∨
    ∃ t ∈ heeded raw, ∃ fs, vocabulary t = some fs ∧ f ∈ fs

theorem Reading.unique {q : Profile} (hp : Reading families raw p) (hq : Reading families raw q) : p = q :=
  hp.canonical.ext hq.canonical fun f => (hp.members f).trans (hq.members f).symm

theorem tokens_cons (t : List Char) (raw : List (List Char)) :
    tokens (t :: raw) = if String.ofList (Validate.trim (String.ofList t)) = "" then tokens raw
      else String.ofList (Validate.trim (String.ofList t)) :: tokens raw := by
  rw [tokens, List.map_cons, List.filter_cons]
  split <;> simp_all [tokens]

variable {t : List Char}

theorem heeded_cons (ht : String.ofList (Validate.trim (String.ofList t)) = token) (hblank : token ≠ "")
    (hfull : token ≠ "full") : heeded (t :: raw) = token :: heeded raw := by
  rw [heeded, tokens_cons, ht, if_neg hblank]
  exact List.takeWhile_cons_of_pos (by simpa using hfull)

theorem reading_nil (h : families.Nodup) : Reading families [] (resolved families) where
  known := List.forall_mem_nil _
  canonical := canonical_resolved h
  members f := by
    rw [mem_resolved h]
    simp [tokens, heeded]

theorem reading_blank (ht : String.ofList (Validate.trim (String.ofList t)) = "") :
    Reading families (t :: raw) p ↔ Reading families raw p := by
  have htokens : tokens (t :: raw) = tokens raw := by rw [tokens_cons, if_pos ht]
  have hheeded : heeded (t :: raw) = heeded raw := by rw [heeded, htokens, heeded]
  constructor <;> rintro ⟨h1, h2, h3⟩
  · rw [hheeded] at h1
    simp only [hheeded, htokens] at h3
    exact ⟨h1, h2, h3⟩
  · refine ⟨by rwa [hheeded], h2, ?_⟩
    simpa only [hheeded, htokens] using h3

theorem canonical_full : full.Canonical := ⟨by decide, by decide⟩

/-- The token `full`: what follows is not heeded. -/
theorem reading_full (ht : String.ofList (Validate.trim (String.ofList t)) = "full") :
    Reading families (t :: raw) p ↔ p = full := by
  have htokens : tokens (t :: raw) = "full" :: tokens raw := by rw [tokens_cons, ht, if_neg (by decide)]
  have hheeded : heeded (t :: raw) = [] := by rw [heeded, htokens]; rfl
  have hfull : Reading families (t :: raw) full := by
    refine ⟨?_, canonical_full, fun f => ?_⟩
    · rw [hheeded]
      exact List.forall_mem_nil _
    · exact iff_of_true f.mem_all (.inr (.inr (.inl (by rw [htokens]; exact List.mem_cons_self))))
  exact ⟨fun h => h.unique hfull, fun h => h ▸ hfull⟩

theorem regroup {a b c d e : Prop} : (a ∨ b ∨ c ∨ d ∨ e) ↔ (a ∨ (b ∨ d) ∨ c ∨ e) := by tauto

theorem reading_cons {families' fs : List Family}
    (ht : String.ofList (Validate.trim (String.ofList t)) = token)
    (hblank : token ≠ "") (hfull : token ≠ "full") (hfs : vocabulary token = some fs)
    (hfamilies : ∀ f, f ∈ families' ↔ f ∈ families ∨ f ∈ fs) :
    Reading families (t :: raw) p ↔ Reading families' raw p := by
  have htokens : tokens (t :: raw) = token :: tokens raw := by rw [tokens_cons, ht, if_neg hblank]
  have hheeded : heeded (t :: raw) = token :: heeded raw := heeded_cons ht hblank hfull
  have hmembers : ∀ f, (f = .core ∨ f ∈ families ∨ "full" ∈ tokens (t :: raw) ∨
      ∃ t' ∈ heeded (t :: raw), ∃ fs, vocabulary t' = some fs ∧ f ∈ fs) ↔
      (f = .core ∨ f ∈ families' ∨ "full" ∈ tokens raw ∨ ∃ t' ∈ heeded raw, ∃ fs, vocabulary t' = some fs ∧ f ∈ fs) := by
    intro f
    have hone : (∃ fs', vocabulary token = some fs' ∧ f ∈ fs') ↔ f ∈ fs := by simp [hfs]
    have hlater : "full" ∈ token :: tokens raw ↔ "full" ∈ tokens raw := List.mem_cons.trans (or_iff_right hfull.symm)
    rw [hfamilies, htokens, hheeded, hlater, List.exists_mem_cons_iff, hone]
    exact regroup
  constructor <;> rintro ⟨h1, h2, h3⟩
  · rw [hheeded, List.forall_mem_cons] at h1
    exact ⟨h1.2, h2, fun f => (h3 f).trans (hmembers f)⟩
  · refine ⟨?_, h2, fun f => (h3 f).trans (hmembers f).symm⟩
    rw [hheeded, List.forall_mem_cons, hfs]
    exact ⟨rfl, h1⟩

theorem not_reading (ht : String.ofList (Validate.trim (String.ofList t)) = token)
    (hblank : token ≠ "") (hfull : token ≠ "full") (hnone : vocabulary token = none) : ¬Reading families (t :: raw) p := by
  intro h
  have hknown := h.known token (by rw [heeded_cons ht hblank hfull]; exact List.mem_cons_self)
  rw [hnone] at hknown
  cases hknown

theorem vocabulary_of_named (h : named token = some p) : vocabulary token = some p.families := by rw [vocabulary, h]

theorem vocabulary_of_family (hnamed : named token = none) (h : Family.fromStr token = .ok f) :
    vocabulary token = some [f] := by
  rw [vocabulary, hnamed, h]
  rfl

theorem vocabulary_eq_none {e : String} (hnamed : named token = none) (h : Family.fromStr token = .error e) :
    vocabulary token = none := by
  rw [vocabulary, hnamed, h]
  rfl

/-- The loop reads a list exactly so. -/
theorem parseTokens_eq_ok_iff (h : families.Nodup) : parseTokens families raw = .ok p ↔ Reading families raw p := by
  induction raw generalizing families with
  | nil => exact ⟨fun hp => Except.ok.inj hp ▸ reading_nil h, fun hp => congrArg _ ((reading_nil h).unique hp)⟩
  | cons t raw ih =>
    rw [parseTokens]
    generalize ht : String.ofList (Validate.trim (String.ofList t)) = token
    split_ifs with hblank hfull
    · rw [ih h, reading_blank (ht.trans hblank)]
    · rw [reading_full (ht.trans hfull)]
      exact ⟨fun hp => (Except.ok.inj hp).symm, fun hp => congrArg _ hp.symm⟩
    · cases hnamed : named token with
      | some q =>
        rw [reading_cons ht hblank hfull (vocabulary_of_named hnamed) fun f => mem_merge]
        exact ih (nodup_merge h)
      | none =>
        cases hfamily : Family.fromStr token with
        | ok g =>
          rw [reading_cons ht hblank hfull (vocabulary_of_family hnamed hfamily) fun f => mem_push.trans
            (or_congr_right List.mem_singleton.symm)]
          exact ih (nodup_push h)
        | error e => exact iff_of_false (fun hp => by cases hp) (not_reading ht hblank hfull (vocabulary_eq_none hnamed hfamily))

end Tokens

/-! ## A profile and its label -/

section Label

variable {s s' : String} {p q : Profile}

def pieces (s : String) : List (List Char) := (Validate.trim s).splitOn ','

theorem parseTokens_named {t : List Char} (h : named (String.ofList t) = some p) :
    parseTokens [] (t.splitOn ',') = .ok p := by
  have htoken : ∀ name : String, String.ofList t = name → t = name.toList := by
    rintro name rfl
    rw [String.toList_ofList]
  unfold named at h
  split at h <;> cases h
  all_goals
    next ht =>
    rw [htoken _ ht]
    decide

theorem parse_eq (hlower : (Validate.trim s).any Char.isUpper = false) : parse s = parseTokens [] (pieces s) := by
  unfold parse pieces
  dsimp only
  rw [hlower, if_neg Bool.false_ne_true]
  split
  · next hblank =>
    rw [hblank]
    decide
  · cases hnamed : named (String.ofList (Validate.trim s)) with
    | none => rfl
    | some p => exact (parseTokens_named hnamed).symm

/-- A text is read exactly when it has no uppercase letter and every token before the first `full` is known. -/
theorem parse_eq_ok_iff : parse s = .ok p ↔ (Validate.trim s).any Char.isUpper = false ∧ Reading [] (pieces s) p := by
  cases hupper : (Validate.trim s).any Char.isUpper with
  | false => rw [parse_eq hupper, parseTokens_eq_ok_iff List.nodup_nil, and_iff_right rfl]
  | true =>
    refine iff_of_false (fun h => ?_) fun h => Bool.noConfusion h.1
    have hne : Validate.trim s ≠ [] := by
      intro hnil
      rw [hnil] at hupper
      cases hupper
    rw [parse, if_neg hne, hupper, if_pos rfl] at h
    cases h

/-- What a name of a family is as a token. -/
structure NameOk (f : Family) : Prop where
  comma : ',' ∉ f.name.toList
  white : ∀ c ∈ f.name.toList, Validate.isWhitespace c = false
  lower : ∀ c ∈ f.name.toList, c.isUpper = false
  notBlank : f.name ≠ ""
  notFull : f.name ≠ "full"
  means : ∃ fs, vocabulary f.name = some fs ∧ ∀ g, g ∈ fs ↔ g = .core ∧ f ∈ [.core, .graph, .power] ∨ g = f

theorem nameOk (f : Family) : NameOk f := by
  cases f
  case core => exact ⟨by decide, by decide, by decide, by decide, by decide, [.core], rfl, by intro g; cases g <;> decide⟩
  case graph => exact ⟨by decide, by decide, by decide, by decide, by decide, _, rfl, by intro g; cases g <;> decide⟩
  case power => exact ⟨by decide, by decide, by decide, by decide, by decide, _, rfl, by intro g; cases g <;> decide⟩
  all_goals exact ⟨by decide, by decide, by decide, by decide, by decide, _, rfl, by intro g; cases g <;> decide⟩

theorem trim_of_no_white (h : ∀ c ∈ s.toList, Validate.isWhitespace c = false) : Validate.trim s = s.toList :=
  Validate.stripped_eq_self h

theorem tokens_names (l : List Family) : tokens (l.map fun f => f.name.toList) = l.map Family.name := by
  induction l with
  | nil => rfl
  | cons f l ih =>
    rw [List.map_cons, tokens_cons, ih, String.ofList_toList, trim_of_no_white (nameOk f).white, String.ofList_toList,
      if_neg (nameOk f).notBlank, List.map_cons]

theorem heeded_names (l : List Family) : heeded (l.map fun f => f.name.toList) = l.map Family.name := by
  rw [heeded, tokens_names, List.takeWhile_eq_self_iff]
  intro t ht
  obtain ⟨f, -, rfl⟩ := List.mem_map.mp ht
  exact decide_eq_true (nameOk f).notFull

theorem reading_names (hp : p.Canonical) : Reading [] (p.families.map fun f => f.name.toList) p where
  known := by
    rw [heeded_names]
    intro t ht
    obtain ⟨f, -, rfl⟩ := List.mem_map.mp ht
    obtain ⟨fs, hfs, -⟩ := (nameOk f).means
    rw [hfs]
    rfl
  canonical := hp
  members g := by
    rw [heeded_names, tokens_names]
    constructor
    · intro hg
      obtain ⟨fs, hfs, hmeans⟩ := (nameOk g).means
      exact .inr (.inr (.inr ⟨_, List.mem_map_of_mem hg, fs, hfs, (hmeans g).mpr (.inr rfl)⟩))
    · rintro (rfl | hnone | hfull | ⟨t, ht, fs, hfs, hg⟩)
      · exact hp.core
      · cases hnone
      · obtain ⟨f, -, hf⟩ := List.mem_map.mp hfull
        exact absurd hf (nameOk f).notFull
      · obtain ⟨f, hf, rfl⟩ := List.mem_map.mp ht
        obtain ⟨fs', hfs', hmeans⟩ := (nameOk f).means
        rw [hfs'] at hfs
        cases hfs
        obtain ⟨rfl, -⟩ | rfl := (hmeans g).mp hg
        · exact hp.core
        · exact hf

theorem parse_names (hp : p.Canonical) : parse (",".intercalate (p.families.map Family.name)) = .ok p := by
  have hchars : (",".intercalate (p.families.map Family.name)).toList =
      List.intercalate [','] (p.families.map fun f => f.name.toList) := by
    rw [String.toList_intercalate, List.map_map]
    rfl
  have hall : ∀ P : Char → Prop, P ',' → (∀ f : Family, ∀ c ∈ f.name.toList, P c) →
      ∀ c ∈ (",".intercalate (p.families.map Family.name)).toList, P c := by
    intro P hcomma hname c hc
    by_contra hP
    rw [hchars] at hc
    refine Delimited.not_mem_intercalate (fun heq => hP (by rw [heq]; exact hcomma)) (fun cell hcell hmem => ?_) hc
    obtain ⟨f, -, rfl⟩ := List.mem_map.mp hcell
    exact hP (hname f c hmem)
  have htrim := trim_of_no_white (hall _ (by decide) fun f => (nameOk f).white)
  refine parse_eq_ok_iff.mpr ⟨?_, ?_⟩
  · rw [htrim, List.any_eq_false]
    exact fun c hc => by rw [hall (fun c => c.isUpper = false) (by decide) (fun f => (nameOk f).lower) c hc]; exact Bool.false_ne_true
  · have hpieces : pieces (",".intercalate (p.families.map Family.name)) = p.families.map fun f => f.name.toList := by
      rw [pieces, htrim, hchars]
      refine List.splitOn_intercalate ',' (fun cell hcell => ?_) fun hnil => ?_
      · obtain ⟨f, -, rfl⟩ := List.mem_map.mp hcell
        exact (nameOk f).comma
      · exact List.ne_nil_of_mem hp.core (List.map_eq_nil_iff.mp hnil)
    rw [hpieces]
    exact reading_names hp

theorem parse_summaryLabel (hp : p.Canonical) : parse p.summaryLabel = .ok p := by
  unfold summaryLabel
  split_ifs with hfull hcore hgraph hadmin hpower
  · rw [hfull]
    decide
  · rw [hcore]
    decide
  · rw [hgraph]
    decide
  · rw [hadmin]
    decide
  · rw [hpower]
    decide
  · exact parse_names hp

/-- What texts are read as profiles: the order of the tokens before the first `full`, and how often each stands there, make no
difference, and the label of a profile is read as that profile. -/
theorem parse_spec :
    (∀ s p, parse s = .ok p ↔ (Validate.trim s).any Char.isUpper = false ∧ Reading [] (pieces s) p) ∧
      (∀ s s' p p', parse s = .ok p → parse s' = .ok p' → (∀ t, t ∈ heeded (pieces s) ↔ t ∈ heeded (pieces s')) →
        ("full" ∈ tokens (pieces s) ↔ "full" ∈ tokens (pieces s')) → p = p') ∧
      ∀ s p, parse s = .ok p → parse p.summaryLabel = .ok p := by
  refine ⟨fun s p => parse_eq_ok_iff, fun s s' p p' hp hp' hheeded hfull => ?_, fun s p hp => ?_⟩
  · have h := (parse_eq_ok_iff.mp hp).2
    have h' := (parse_eq_ok_iff.mp hp').2
    refine h.canonical.ext h'.canonical fun f => ?_
    rw [h.members, h'.members, hfull]
    simp only [hheeded]
  · exact parse_summaryLabel (parse_eq_ok_iff.mp hp).2.canonical

end Label

end Profile

/-! ## The allowlist -/

/-- The `[mcp]` block. The table is a `HashMap`: its rows, each key once, in the order in which they are walked. -/
structure McpConfig where
  allowlist : Option (List (String × List String))
  nodup : ∀ table ∈ allowlist, (table.map Prod.fst).Nodup

inductive AllowlistDecision where
  | disabled
  | allow
  | deny
  deriving DecidableEq

def McpConfig.decide (families : List String) (requested : String) : AllowlistDecision :=
  if "full" ∈ families ∨ requested ∈ families then .allow else .deny

/-- The keys other than the wildcard that start an id, longest first. -/
def prefixKeys (table : List (String × List String)) (aid : String) : List String :=
  ((table.map Prod.fst).filter fun k => k ≠ "*" ∧ k.toList <+: aid.toList).insertionSort fun a b =>
    Validate.byteLen b.toList ≤ Validate.byteLen a.toList

def McpConfig.allowlistDecision (cfg : McpConfig) (agentId : Option String) (family : String) : AllowlistDecision :=
  match cfg.allowlist with
  | none | some [] => .disabled
  | some table =>
    let aid := agentId.getD ""
    match table.lookup aid with
    | some families => McpConfig.decide families family
    | none =>
      match (prefixKeys table aid).head?.bind fun k => table.lookup k with
      | some families => McpConfig.decide families family
      | none =>
        match table.lookup "*" with
        | some families => McpConfig.decide families family
        | none => .deny

section Allowlist

variable {table : List (String × List String)} {aid k : String} {families : List String}

/-- A key that names an agent or starts its id. -/
def Covers (k aid : String) : Prop := k = aid ∨ k ≠ "*" ∧ k.toList <+: aid.toList

/-- The row that decides for an agent: the longest key that covers it, or else the wildcard. -/
def Governs (table : List (String × List String)) (aid k : String) : Prop :=
  k ∈ table.map Prod.fst ∧
    (Covers k aid ∧ (∀ k' ∈ table.map Prod.fst, Covers k' aid → Validate.byteLen k'.toList ≤ Validate.byteLen k.toList) ∨
      k = "*" ∧ ∀ k' ∈ table.map Prod.fst, ¬Covers k' aid)

theorem Covers.isPrefix (h : Covers k aid) : k.toList <+: aid.toList := by
  obtain rfl | ⟨-, h⟩ := h
  · exact List.prefix_rfl
  · exact h

theorem byteLen_append (s t : List Char) : Validate.byteLen (s ++ t) = Validate.byteLen s + Validate.byteLen t := by
  simp [Validate.byteLen]

theorem byteLen_le_of_prefix {s t : List Char} (h : s <+: t) : Validate.byteLen s ≤ Validate.byteLen t := by
  obtain ⟨r, rfl⟩ := h
  rw [byteLen_append]
  omega

theorem eq_of_byteLen_le {s t : List Char} (h : s <+: t) (hle : Validate.byteLen t ≤ Validate.byteLen s) : s = t := by
  obtain ⟨r, rfl⟩ := h
  rw [byteLen_append] at hle
  cases r with
  | nil => rw [List.append_nil]
  | cons c r =>
    have := Char.utf8Size_pos c
    simp only [Validate.byteLen, List.map_cons, List.sum_cons] at hle
    omega

theorem Governs.unique {k' : String} (h : Governs table aid k) (h' : Governs table aid k') : k = k' := by
  obtain ⟨hk, ⟨hcov, hmax⟩ | ⟨rfl, hnone⟩⟩ := h <;> obtain ⟨hk', ⟨hcov', hmax'⟩ | ⟨rfl, hnone'⟩⟩ := h'
  · rcases List.prefix_or_prefix_of_prefix hcov.isPrefix hcov'.isPrefix with hp | hp
    · exact String.toList_inj.mp (eq_of_byteLen_le hp (hmax k' hk' hcov'))
    · exact (String.toList_inj.mp (eq_of_byteLen_le hp (hmax' k hk hcov))).symm
  · exact absurd hcov (hnone' k hk)
  · exact absurd hcov' (hnone k' hk')
  · rfl

theorem mem_of_lookup (h : table.lookup k = some families) : (k, families) ∈ table := by
  obtain ⟨l₁, l₂, rfl, -⟩ := List.lookup_eq_some_iff.mp h
  exact List.mem_append_right _ List.mem_cons_self

theorem mem_keys_of_lookup (h : table.lookup k = some families) : k ∈ table.map Prod.fst :=
  List.mem_map_of_mem (f := Prod.fst) (mem_of_lookup h)

theorem lookup_eq_none_iff' : table.lookup k = none ↔ k ∉ table.map Prod.fst := by
  rw [List.lookup_eq_none_iff]
  simp only [List.mem_map, not_exists, not_and, bne_iff_ne]
  exact forall₂_congr fun p _ => ne_comm

theorem mem_prefixKeys : k ∈ prefixKeys table aid ↔ k ∈ table.map Prod.fst ∧ k ≠ "*" ∧ k.toList <+: aid.toList := by
  rw [prefixKeys, List.mem_insertionSort, List.mem_filter, decide_eq_true_eq]

def rowFor (table : List (String × List String)) (aid : String) : Option (List String) :=
  (table.lookup aid).or (((prefixKeys table aid).head?.bind fun k => table.lookup k).or (table.lookup "*"))

variable {cfg : McpConfig}

theorem allowlistDecision_eq (hcfg : cfg.allowlist = some table) (hne : table ≠ [])
    (agentId : Option String)
    (family : String) :
    cfg.allowlistDecision agentId family =
      (rowFor table (agentId.getD "")).elim .deny fun families => McpConfig.decide families family := by
  cases table with
  | nil => exact absurd rfl hne
  | cons row table =>
    unfold McpConfig.allowlistDecision rowFor
    rw [hcfg]
    dsimp only
    cases (row :: table).lookup (agentId.getD "") with
    | some families => rfl
    | none =>
      cases (prefixKeys (row :: table) (agentId.getD "")).head?.bind fun k => (row :: table).lookup k with
      | some families => rfl
      | none => cases (row :: table).lookup "*" <;> rfl

/-- The row that is taken is that of the key that governs. -/
theorem governs_of_rowFor (h : rowFor table aid = some families) : ∃ k, Governs table aid k ∧ (k, families) ∈ table := by
  unfold rowFor at h
  cases hexact : table.lookup aid with
  | some fams =>
    rw [hexact] at h
    cases h
    refine ⟨aid, ⟨mem_keys_of_lookup hexact, .inl ⟨.inl rfl, fun k' _ hk' => byteLen_le_of_prefix hk'.isPrefix⟩⟩,
      mem_of_lookup hexact⟩
  | none =>
    rw [hexact, Option.none_or] at h
    have hcovers : ∀ k ∈ table.map Prod.fst, Covers k aid → k ∈ prefixKeys table aid := by
      rintro k hk (rfl | hcov)
      · exact absurd hk (lookup_eq_none_iff'.mp hexact)
      · exact mem_prefixKeys.mpr ⟨hk, hcov⟩
    cases hkeys : prefixKeys table aid with
    | nil =>
      rw [hkeys] at h hcovers
      exact ⟨"*", ⟨mem_keys_of_lookup h, .inr ⟨rfl, fun k hk hcov => List.not_mem_nil (hcovers k hk hcov)⟩⟩, mem_of_lookup h⟩
    | cons k rest =>
      have hk := mem_prefixKeys.mp (hkeys ▸ List.mem_cons_self : k ∈ prefixKeys table aid)
      have hsorted := List.pairwise_insertionSort (fun a b : String => Validate.byteLen b.toList ≤ Validate.byteLen a.toList)
        ((table.map Prod.fst).filter fun k => k ≠ "*" ∧ k.toList <+: aid.toList)
      rw [show List.insertionSort _ _ = k :: rest from hkeys, List.pairwise_cons] at hsorted
      cases hrow : table.lookup k with
      | none => exact absurd hk.1 (lookup_eq_none_iff'.mp hrow)
      | some fams =>
        rw [hkeys, List.head?_cons, Option.bind_some, hrow] at h
        cases h
        refine ⟨k, ⟨hk.1, .inl ⟨.inr hk.2, fun k' hk' hcov => ?_⟩⟩, mem_of_lookup hrow⟩
        have hmem := hcovers k' hk' hcov
        rw [hkeys] at hmem
        obtain rfl | hrest := List.mem_cons.mp hmem
        · exact le_rfl
        · exact hsorted.1 k' hrest

theorem not_governs_of_rowFor (h : rowFor table aid = none) : ¬Governs table aid k := by
  unfold rowFor at h
  rw [Option.or_eq_none_iff, Option.or_eq_none_iff] at h
  obtain ⟨hexact, hprefix, hwild⟩ := h
  rintro ⟨hk, ⟨rfl | hcov, -⟩ | ⟨rfl, -⟩⟩
  · exact lookup_eq_none_iff'.mp hexact hk
  · cases hkeys : prefixKeys table aid with
    | nil =>
      have hmem := mem_prefixKeys.mpr ⟨hk, hcov⟩
      rw [hkeys] at hmem
      cases hmem
    | cons k' rest =>
      rw [hkeys, List.head?_cons, Option.bind_some] at hprefix
      have hk' := mem_prefixKeys.mp (hkeys ▸ List.mem_cons_self : k' ∈ prefixKeys table aid)
      exact lookup_eq_none_iff'.mp hprefix hk'.1
  · exact lookup_eq_none_iff'.mp hwild hk

theorem decide_eq_allow_iff {family : String} :
    McpConfig.decide families family = .allow ↔ "full" ∈ families ∨ family ∈ families := by
  unfold McpConfig.decide
  split
  · next h => exact iff_of_true rfl h
  · next h => exact iff_of_false (fun he => by cases he) h

theorem allowlistDecision_eq_allow_iff (hcfg : cfg.allowlist = some table) (hne : table ≠ [])
    (agentId : Option String) (family : String) :
    cfg.allowlistDecision agentId family = .allow ↔
      ∃ k families, Governs table (agentId.getD "") k ∧ (k, families) ∈ table ∧ ("full" ∈ families ∨ family ∈ families) := by
  rw [allowlistDecision_eq hcfg hne agentId family]
  cases hrow : rowFor table (agentId.getD "") with
  | none =>
    refine iff_of_false (fun h => by cases h) ?_
    rintro ⟨k, -, hgov, -⟩
    exact not_governs_of_rowFor hrow hgov
  | some families =>
    obtain ⟨k, hgov, hmem⟩ := governs_of_rowFor hrow
    rw [Option.elim_some, decide_eq_allow_iff]
    constructor
    · exact fun h => ⟨k, families, hgov, hmem, h⟩
    · rintro ⟨k', families', hgov', hmem', h⟩
      rw [← hgov.unique hgov'] at hmem'
      have hsame := List.inj_on_of_nodup_map (cfg.nodup table hcfg) hmem hmem' rfl
      cases hsame
      exact h

theorem allowlistDecision_eq_disabled_iff {agentId : Option String} {family : String} :
    cfg.allowlistDecision agentId family = .disabled ↔ ∀ table ∈ cfg.allowlist, table = [] := by
  cases hcfg : cfg.allowlist with
  | none =>
    refine iff_of_true ?_ fun table h => (Option.not_mem_none table h).elim
    rw [McpConfig.allowlistDecision, hcfg]
  | some table =>
    cases table with
    | nil =>
      refine iff_of_true ?_ fun table h => (Option.some.inj h).symm
      rw [McpConfig.allowlistDecision, hcfg]
    | cons row table =>
      have hne : row :: table ≠ [] := List.cons_ne_nil row table
      refine iff_of_false (fun h => ?_) fun h => hne (h _ rfl)
      rw [allowlistDecision_eq hcfg hne agentId family] at h
      cases hrow : rowFor (row :: table) (agentId.getD "") with
      | none =>
        rw [hrow] at h
        cases h
      | some families =>
        rw [hrow, Option.elim_some, McpConfig.decide] at h
        split at h <;> cases h

theorem governs_congr {table' : List (String × List String)} (h : table.Perm table') :
    Governs table aid k ↔ Governs table' aid k := by
  have hkeys : ∀ k, k ∈ table.map Prod.fst ↔ k ∈ table'.map Prod.fst := fun k => (h.map Prod.fst).mem_iff
  simp only [Governs, hkeys]

/-- The row of the longest key decides, or that of the wildcard where no key covers the agent; the order in which the table is
walked makes no difference. -/
theorem allowlistDecision_spec (cfg : McpConfig) (agentId : Option String) (family : String) :
    (cfg.allowlistDecision agentId family = .disabled ↔ ∀ table ∈ cfg.allowlist, table = []) ∧
      (cfg.allowlistDecision agentId family = .allow ↔ ∃ table ∈ cfg.allowlist, ∃ k families,
        Governs table (agentId.getD "") k ∧ (k, families) ∈ table ∧ ("full" ∈ families ∨ family ∈ families)) ∧
      (∀ table ∈ cfg.allowlist, ∀ k k', Governs table (agentId.getD "") k → Governs table (agentId.getD "") k' → k = k') ∧
      ∀ (cfg' : McpConfig) (table table' : List (String × List String)), cfg.allowlist = some table →
        cfg'.allowlist = some table' →
        table.Perm table' → cfg'.allowlistDecision agentId family = cfg.allowlistDecision agentId family := by
  have hallow : ∀ c : McpConfig, c.allowlistDecision agentId family = .allow ↔ ∃ table ∈ c.allowlist, ∃ k families,
      Governs table (agentId.getD "") k ∧ (k, families) ∈ table ∧ ("full" ∈ families ∨ family ∈ families) := by
    intro c
    by_cases hempty : ∀ table ∈ c.allowlist, table = []
    · rw [allowlistDecision_eq_disabled_iff.mpr hempty]
      refine iff_of_false (fun h => by cases h) ?_
      rintro ⟨table, htable, k, families, -, hmem, -⟩
      rw [hempty table htable] at hmem
      cases hmem
    · push Not at hempty
      obtain ⟨table, htable, hne⟩ := hempty
      rw [allowlistDecision_eq_allow_iff htable hne]
      constructor
      · exact fun h => ⟨table, htable, h⟩
      · rintro ⟨table', htable', h⟩
        cases Option.mem_unique htable htable'
        exact h
  refine ⟨allowlistDecision_eq_disabled_iff, hallow cfg, fun table _ k k' h h' => h.unique h',
    fun cfg' table table' ht ht' hperm => ?_⟩
  have hdisabled : cfg'.allowlistDecision agentId family = .disabled ↔ cfg.allowlistDecision agentId family = .disabled := by
    have hnil : table' = [] ↔ table = [] := ⟨fun h => List.perm_nil.mp (h ▸ hperm), fun h => List.nil_perm.mp (h ▸ hperm)⟩
    rw [allowlistDecision_eq_disabled_iff, allowlistDecision_eq_disabled_iff, ht, ht']
    simpa using hnil
  have hsame : cfg'.allowlistDecision agentId family = .allow ↔ cfg.allowlistDecision agentId family = .allow := by
    rw [hallow, hallow, ht, ht']
    simp only [Option.mem_some_iff, exists_eq_left', governs_congr hperm, hperm.mem_iff]
  cases h : cfg.allowlistDecision agentId family with
  | disabled => exact hdisabled.mpr h
  | allow => exact hsame.mpr h
  | deny =>
    cases h' : cfg'.allowlistDecision agentId family with
    | disabled => exact absurd (hdisabled.mp h') (by rw [h]; decide)
    | allow => exact absurd (hsame.mp h') (by rw [h]; decide)
    | deny => rfl

end Allowlist

end AiMemory.Mcp

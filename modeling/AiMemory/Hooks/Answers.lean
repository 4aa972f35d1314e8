import AiMemory.Hooks.Daemon

/-!
# Whose answer a fire returns

Requests and answers are matched by their place in the pipes. As long as each fire finds both pipes empty when it takes a
connection over, a fire that returns a decision returns the answer to its own envelope (`answered_of_clean`). A fire that
the chain drops after it has written leaves its answer to the next one.
-/

namespace AiMemory.Hooks

open Machine

namespace Daemon

variable {cfg : DaemonConfig} {g : Guarded} {replies more : List Reply} {i j : ℕ} {f : Fire} {s : Daemon} {ops : List Op}

/-- A reply to the envelope of fire `i`. -/
def AnswerTo (cfg : DaemonConfig) (i : ℕ) (f : Fire) (r : Reply) : Prop := r.fire = i ∧ r.line = envelope cfg f

/-- A fire takes over a connection whose pipes are empty. -/
def Clean (s : Daemon) : Op → Prop
  | .act i .acquire => ∀ f ∈ s.fires[i]?, f.phase = .waiting → s.lock = none →
      ∀ conn ∈ s.conn, conn.stdin = [] ∧ conn.stdout = []
  | _ => True

/-- A fire that returns a decision returns the answer to its own envelope. -/
def Answered (cfg : DaemonConfig) (s : Daemon) : Prop :=
  ∀ i f decision, s.fires[i]? = some f → f.phase = .returned (.ok decision) →
    ∃ r ∈ s.replies, AnswerTo cfg i f r ∧
      parseDecisionLine cfg.serde (String.ofList (r.text.1 ++ ['\n'])) = .ok decision

/-- Characters that fire `i` wrote. -/
def written (i : ℕ) (l : List Char) : List (Char × ℕ) := l.map fun c => (c, i)

/-- What the pipes hold for a fire: nothing before it writes, then what it wrote, then the rest of its answer. -/
def FireOk (cfg : DaemonConfig) (g : Guarded) (replies : List Reply) (i : ℕ) (f : Fire) : Prop :=
  match f.phase with
  | .connecting => g = ⟨none, some i⟩
  | .writing rest => rest ≠ [] ∧
      ∃ l, l ++ rest = envelope cfg f ++ ['\n'] ∧ g = ⟨some ⟨written i l, []⟩, some i⟩
  | .reading line =>
      line = [] ∧ g = ⟨some ⟨written i (envelope cfg f ++ ['\n']), []⟩, some i⟩ ∨
      ∃ r ∈ replies, AnswerTo cfg i f r ∧ ∃ rest, line ++ rest = r.text.1 ++ ['\n'] ∧ g = ⟨some ⟨[], rest⟩, some i⟩
  | .returned (.ok decision) => ∃ r ∈ replies, AnswerTo cfg i f r ∧
      parseDecisionLine cfg.serde (String.ofList (r.text.1 ++ ['\n'])) = .ok decision
  | _ => True

theorem lock_of_holds (h : FireOk cfg g replies i f) (hf : f.phase.holds = true) : g.lock = some i := by
  obtain ⟨event, payload, phase⟩ := f
  cases phase with
  | connecting => exact congrArg Guarded.lock h
  | writing rest =>
    obtain ⟨-, -, -, rfl⟩ := h
    rfl
  | reading line =>
    rcases h with ⟨-, rfl⟩ | ⟨-, -, -, -, -, rfl⟩ <;> rfl
  | _ => cases hf

theorem fireOk_of_not_holds {g' : Guarded} (h : FireOk cfg g replies i f) (hf : f.phase.holds = false) :
    FireOk cfg g' replies i f := by
  obtain ⟨event, payload, phase⟩ := f
  cases phase with
  | connecting => cases hf
  | writing rest => cases hf
  | reading line => cases hf
  | returned result => cases result <;> exact h
  | _ => exact h

theorem fireOk_mono (hsub : replies ⊆ more) (h : FireOk cfg g replies i f) : FireOk cfg g more i f := by
  obtain ⟨event, payload, phase⟩ := f
  cases phase with
  | reading line =>
    refine h.imp_right ?_
    rintro ⟨r, hr, hrest⟩
    exact ⟨r, hsub hr, hrest⟩
  | returned result =>
    cases result with
    | ok decision =>
      obtain ⟨r, hr, hrest⟩ := h
      exact ⟨r, hsub hr, hrest⟩
    | error e => trivial
  | _ => exact h

theorem advance_other (h : FireOk cfg g replies i f) (hlock : g.lock = some j) (hij : i ≠ j) (a : Act) :
    (advance cfg g i f a).1 = g := by
  have hf : f.phase.holds = false := by
    by_contra hc
    have := lock_of_holds h (Bool.not_eq_false _ ▸ hc)
    exact hij (Option.some.inj (this.symm.trans hlock))
  obtain ⟨event, payload, phase⟩ := f
  obtain ⟨conn, lock⟩ := g
  cases hlock
  cases phase <;> first | (cases hf; done) | (cases a <;> cases conn <;> rfl)

/-! ## The steps of one fire -/

theorem acquire_ok (h : FireOk cfg g replies i f)
    (hclean : f.phase = .waiting → g.lock = none → ∀ conn ∈ g.conn, conn.stdin = [] ∧ conn.stdout = []) :
    FireOk cfg (advance cfg g i f .acquire).1 replies i { f with phase := (advance cfg g i f .acquire).2 } := by
  obtain ⟨event, payload, phase⟩ := f
  obtain ⟨conn, lock⟩ := g
  cases phase with
  | waiting =>
    cases lock with
    | some j => trivial
    | none =>
      cases conn with
      | none => rfl
      | some conn =>
        obtain ⟨stdin, stdout⟩ := conn
        obtain ⟨rfl, rfl⟩ : stdin = [] ∧ stdout = [] := hclean rfl rfl _ rfl
        exact ⟨List.append_ne_nil_of_right_ne_nil _ (List.cons_ne_nil _ _), [], rfl, rfl⟩
  | returned result => cases result <;> exact h
  | _ => exact h

theorem connect_ok {spawnOne : ℕ → Except ExecutorError Unit} (h : FireOk cfg g replies i f) :
    FireOk cfg (advance cfg g i f (.connect spawnOne)).1 replies i
      { f with phase := (advance cfg g i f (.connect spawnOne)).2 } := by
  obtain ⟨event, payload, phase⟩ := f
  cases phase with
  | connecting =>
    simp only [advance]
    cases connectWithBackoff spawnOne with
    | ok u => exact ⟨List.append_ne_nil_of_right_ne_nil _ (List.cons_ne_nil _ _), [], rfl, rfl⟩
    | error e => trivial
  | returned result => cases result <;> exact h
  | _ => exact h

theorem write_ok {n : ℕ} (h : FireOk cfg g replies i f) :
    FireOk cfg (advance cfg g i f (.write n)).1 replies i { f with phase := (advance cfg g i f (.write n)).2 } := by
  obtain ⟨event, payload, phase⟩ := f
  cases phase with
  | writing rest =>
    obtain ⟨-, l, hl, rfl⟩ := h
    have hpipe : written i l ++ (rest.take n).map (fun c => (c, i)) = written i (l ++ rest.take n) := by
      rw [written, written, List.map_append]
    simp only [advance, hpipe]
    by_cases hrest : rest.drop n = []
    · rw [if_pos hrest]
      have htake : rest.take n = rest := by simpa [hrest] using List.take_append_drop n rest
      rw [htake, hl]
      exact Or.inl ⟨rfl, rfl⟩
    · rw [if_neg hrest]
      refine ⟨hrest, _, ?_, rfl⟩
      rw [List.append_assoc, List.take_append_drop]
      exact hl
  | returned result => cases result <;> exact h
  | _ => exact h

theorem line_eq_of_append {l t rest : List Char} (ht : '\n' ∉ t) (h : l ++ '\n' :: rest = t ++ ['\n']) : l = t := by
  induction l generalizing t with
  | nil =>
    cases t with
    | nil => rfl
    | cons c t => exact absurd (List.mem_cons.mpr (Or.inl (List.cons.inj h).1)) ht
  | cons c l ih =>
    cases t with
    | nil => exact absurd (List.cons.inj h).2 (List.append_ne_nil_of_right_ne_nil _ (List.cons_ne_nil _ _))
    | cons d t =>
      obtain ⟨rfl, htail⟩ := List.cons.inj h
      rw [ih (fun hmem => ht (List.mem_cons_of_mem c hmem)) htail]

theorem read_ok (h : FireOk cfg g replies i f) :
    FireOk cfg (advance cfg g i f .read).1 replies i { f with phase := (advance cfg g i f .read).2 } := by
  obtain ⟨event, payload, phase⟩ := f
  cases phase with
  | reading line =>
    rcases h with ⟨rfl, rfl⟩ | ⟨r, hr, hans, rest, hrest, rfl⟩
    · exact Or.inl ⟨rfl, rfl⟩
    · cases rest with
      | nil => exact Or.inr ⟨r, hr, hans, [], hrest, rfl⟩
      | cons c rest =>
        simp only [advance]
        by_cases hc : c = '\n'
        · subst hc
          have hline : line = r.text.1 := line_eq_of_append r.text.2 hrest
          rw [if_pos rfl, finish, hline]
          cases hparse : parseDecisionLine cfg.serde (String.ofList (r.text.1 ++ ['\n'])) with
          | ok decision => exact ⟨r, hr, hans, hparse⟩
          | error e => trivial
        · rw [if_neg hc]
          refine Or.inr ⟨r, hr, hans, rest, ?_, rfl⟩
          rw [List.append_assoc]
          exact hrest
  | returned result => cases result <;> exact h
  | _ => exact h

/-- A step keeps what the pipes hold for the fire that takes it. -/
theorem advance_ok {a : Act} (h : FireOk cfg g replies i f)
    (hclean : a = .acquire → f.phase = .waiting → g.lock = none → ∀ conn ∈ g.conn, conn.stdin = [] ∧ conn.stdout = []) :
    FireOk cfg (advance cfg g i f a).1 replies i { f with phase := (advance cfg g i f a).2 } := by
  cases a with
  | acquire => exact acquire_ok h (hclean rfl)
  | connect spawnOne => exact connect_ok h
  | write n => exact write_ok h
  | read => exact read_ok h
  | ioError e =>
    obtain ⟨event, payload, phase⟩ := f
    cases phase with
    | writing rest => trivial
    | reading line => trivial
    | returned result => cases result <;> exact h
    | _ => exact h
  | eof tail =>
    obtain ⟨event, payload, phase⟩ := f
    cases phase with
    | reading line =>
      cases line with
      | nil => trivial
      | cons c line => exact h
    | returned result => cases result <;> exact h
    | _ => exact h
  | reset =>
    obtain ⟨event, payload, phase⟩ := f
    obtain ⟨conn, lock⟩ := g
    cases phase with
    | expired => cases lock <;> trivial
    | returned result => cases result <;> exact h
    | _ => exact h
  | deadline =>
    obtain ⟨event, payload, phase⟩ := f
    cases phase with
    | returned result => cases result <;> exact h
    | _ => trivial
  | cancel =>
    obtain ⟨event, payload, phase⟩ := f
    cases phase with
    | returned result => cases result <;> exact h
    | _ => trivial

/-! ## The child -/

theorem ne_newline_of_mem {l : List Char} (hl : '\n' ∉ l) : ∀ c ∈ written i l, decide (c.1 ≠ '\n') = true := by
  intro c hc
  obtain ⟨x, hx, rfl⟩ := List.mem_map.mp hc
  exact decide_eq_true fun hnl => hl (hnl ▸ hx)

theorem dropWhile_written {l rest : List Char} (h : l ++ rest = envelope cfg f ++ ['\n']) (hrest : rest ≠ []) :
    (written i l).dropWhile (fun c => c.1 ≠ '\n') = [] := by
  have hpre : l <+: envelope cfg f := by
    rcases List.prefix_concat_iff.mp (⟨rest, h⟩ : l <+: envelope cfg f ++ ['\n']) with hl | hl
    · exact absurd (List.append_right_eq_self.mp (h.trans hl.symm)) hrest
    · exact hl
  have hl : '\n' ∉ l := fun hmem => cfg.serde.oneLine f.event f.payload (hpre.subset hmem)
  rw [← List.append_nil (written i l), List.dropWhile_append_of_pos (ne_newline_of_mem hl)]
  rfl

theorem written_line : written i (envelope cfg f ++ ['\n']) = written i (envelope cfg f) ++ [('\n', i)] := List.map_append

theorem dropWhile_envelope : (written i (envelope cfg f ++ ['\n'])).dropWhile (fun c => c.1 ≠ '\n') = [('\n', i)] := by
  have hline : '\n' ∉ envelope cfg f := cfg.serde.oneLine f.event f.payload
  rw [written_line, List.dropWhile_append_of_pos (ne_newline_of_mem hline)]
  rfl

theorem takeWhile_envelope : ((written i (envelope cfg f ++ ['\n'])).takeWhile fun c => c.1 ≠ '\n').map Prod.fst =
    envelope cfg f := by
  have hline : '\n' ∉ envelope cfg f := cfg.serde.oneLine f.event f.payload
  have hlast : ([('\n', i)] : List (Char × ℕ)).takeWhile (fun c => c.1 ≠ '\n') = [] := rfl
  rw [written_line, List.takeWhile_append_of_pos (ne_newline_of_mem hline), hlast, List.append_nil, written, List.map_map]
  exact List.map_id _

theorem replies_subset {text : Line} : s.replies ⊆ (s.reply text).replies := by
  unfold reply
  split
  · exact List.Subset.refl _
  · split
    · exact List.Subset.refl _
    · exact List.subset_append_left _ _

theorem reply_ok {text : Line} (h : FireOk cfg s.toGuarded s.replies i f) :
    FireOk cfg (s.reply text).toGuarded (s.reply text).replies i f := by
  cases hf : f.phase.holds with
  | false => exact fireOk_mono replies_subset (fireOk_of_not_holds h hf)
  | true =>
    obtain ⟨g, fires, replies⟩ := s
    obtain ⟨event, payload, phase⟩ := f
    cases phase with
    | connecting =>
      cases (h : g = _)
      rfl
    | writing rest =>
      obtain ⟨hrest, l, hl, hg⟩ := h
      cases (hg : g = _)
      refine ⟨hrest, l, hl, ?_⟩
      simp only [reply, dropWhile_written hl hrest]
    | reading line =>
      rcases h with ⟨rfl, hg⟩ | ⟨r, hr, hans, rest, hrest, hg⟩
      · cases (hg : g = _)
        simp only [reply, dropWhile_envelope, takeWhile_envelope]
        refine Or.inr ⟨_, List.mem_append_right _ (List.mem_singleton.mpr rfl), ⟨rfl, rfl⟩, _, rfl, rfl⟩
      · cases (hg : g = _)
        exact Or.inr ⟨r, hr, hans, rest, hrest, rfl⟩
    | _ => cases hf

/-! ## Runs -/

/-- What the pipes hold for every fire. -/
def Inv (cfg : DaemonConfig) (s : Daemon) : Prop :=
  ∀ i f, s.fires[i]? = some f → FireOk cfg s.toGuarded s.replies i f

theorem fires_reply {text : Line} : (s.reply text).fires = s.fires := by
  unfold reply
  split
  · rfl
  · split <;> rfl

theorem inv_step {op : Op} (h : Inv cfg s) (hclean : s.Clean op) : Inv cfg (step cfg s op) := by
  cases op with
  | fire event payload => exact Threads.forall_append trivial h
  | reply text =>
    intro i f hf
    exact reply_ok (h i f (fires_reply ▸ hf))
  | act i a =>
    rw [step]
    cases hf : s.fires[i]? with
    | none => exact h
    | some f =>
      refine Threads.forall_set ?_ fun j f' hj hf' => ?_
      · refine advance_ok (h i f hf) ?_
        rintro rfl
        exact hclean f hf
      · cases hholds : f'.phase.holds with
        | false => exact fireOk_of_not_holds (h j f' hf') hholds
        | true =>
          have hlock := lock_of_holds (h j f' hf') hholds
          have hsame : (advance cfg s.toGuarded i f a).1 = s.toGuarded := advance_other (h i f hf) hlock (Ne.symm hj) a
          show FireOk cfg (advance cfg s.toGuarded i f a).1 s.replies j f'
          rw [hsame]
          exact h j f' hf'

theorem inv_new : Inv cfg new := fun _ _ hf => by cases hf

theorem answered_of_inv (h : Inv cfg s) : Answered cfg s := by
  rintro i ⟨event, payload, phase⟩ decision hf hphase
  cases hphase
  exact h i _ hf

/-- In a run in which each fire takes over an empty connection, every decision is the answer to the fire that returns
it. -/
theorem answered_of_clean (h : Meets (step cfg) Clean new ops) : ∀ s ∈ states (step cfg) new ops, Answered cfg s :=
  fun s hs => answered_of_inv (forall_states_of_meets (fun _ _ h hclean => inv_step h hclean) inv_new h s hs)

/-! ## Two runs -/

/-- The events and the answers of the runs below. -/
def plainSerde : Serde where
  toVec event payload :=
    let name := if event = .preStore then "pre_store" else "post_store"
    ("\x7b\"event\":\"" ++ name ++ "\",\"payload\":" ++ payload.toText ++ "\x7d").toList.filter (· ≠ '\n')
  oneLine event payload := by simp
  fromStr _ := .error "expected value at line 1 column 1"
  memoryDelta _ := .error "missing field"
  strings _ := .error "invalid type"

def plainConfig : DaemonConfig := ⟨plainSerde, 1000⟩

/-- `{}`, which allows. -/
def allows : Line := ⟨['\x7b', '\x7d'], by decide⟩

def firstPayload : Json := .obj [("title", .str "first")]

def wholeFire : List Op :=
  [.fire .preStore firstPayload, .act 0 .acquire, .act 0 (.connect fun _ => .ok ()), .act 0 (.write 1000), .reply allows,
    .act 0 .read, .act 0 .read, .act 0 .read]

theorem wholeFire_answered : Answered plainConfig (wholeFire.foldl (step plainConfig) new) :=
  have hclean : Meets (step plainConfig) Clean new wholeFire :=
    ⟨trivial, fun _ _ _ _ _ hconn => (by cases hconn), trivial, trivial, trivial, trivial, trivial, trivial, trivial⟩
  answered_of_clean hclean _ foldl_mem_states

/-- The chain drops the first fire after its envelope is written; the second one takes over its connection. -/
def droppedFire : List Op :=
  [.fire .preStore firstPayload, .fire .preStore (.obj [("title", .str "second")]), .act 0 .acquire,
    .act 0 (.connect fun _ => .ok ()), .act 0 (.write 1000), .act 0 .cancel, .act 1 .acquire, .act 1 (.write 1000),
    .reply allows, .act 1 .read, .act 1 .read, .act 1 .read]

/-- The second fire is allowed by the answer to the first one, which is the only answer the child has given. -/
theorem droppedFire_answer :
    let s := droppedFire.foldl (step plainConfig) new
    s.fires[1]?.map Fire.phase = some (.returned (.ok .allow)) ∧ s.replies.map Reply.fire = [0] ∧
      ¬Answered plainConfig s := by
  intro s
  have hreplies : s.replies.map Reply.fire = [0] := by decide
  have hphase : s.fires[1]?.map Fire.phase = some (.returned (.ok .allow)) := by rfl
  refine ⟨hphase, hreplies, fun h => ?_⟩
  obtain ⟨f, hf, hdone⟩ := Option.map_eq_some_iff.mp hphase
  obtain ⟨r, hr, ⟨hfire, -⟩, -⟩ := h 1 f .allow hf hdone
  have hmem : 1 ∈ s.replies.map Reply.fire := List.mem_map.mpr ⟨r, hr, hfire⟩
  exact absurd hmem (by decide)

end Daemon

end AiMemory.Hooks

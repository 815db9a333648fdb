import TurboServe.Gateway.OpenAICompat

/-!
# What an upstream stream becomes

The lines of an upstream response against the events `generate` makes of them, and when
a reported success is one.
-/

namespace TurboServe.Gateway

open TurboServe.Core (FinishReason)
open TurboServe.Lib

/-! ## §1  What the lines say -/

section Lines

variable (loads : String → Loaded)

def isDone (line : String) : Bool := payload line = some doneMarker

/-- `json.loads` fails on the line with more than a `JSONDecodeError`. -/
def failsOn (line : String) : Option String :=
  match payload line with
  | none => none
  | some p =>
      match decode loads p with
      | .error text => some text
      | .ok _ => none

/-- The chunk of a line. -/
def chunkOf (line : String) : Option Dict :=
  match payload line with
  | none => none
  | some p =>
      match decode loads p with
      | .error _ => none
      | .ok chunk => chunk

/-- The parseable chunks before `[DONE]`. -/
def chunksBefore (lines : List String) : List Dict :=
  (lines.takeWhile (! isDone ·)).filterMap (chunkOf loads)

/-- Reading goes on behind the line. -/
def quiet (line : String) : Bool := ! isDone line && (failsOn loads line).isNone

def isErrorObject (chunk : Dict) : Bool :=
  match chunk.get "error" with
  | none => false
  | some .null => false
  | some _ => true

/-- The upstream delivered a finish reason or `[DONE]`, and no error object. -/
def Delivered (lines : List String) : Prop :=
  ((∃ l ∈ lines, isDone l = true) ∨
      ∃ c ∈ chunksBefore loads lines, (choice c).2.isSome = true) ∧
    ∀ c ∈ chunksBefore loads lines, isErrorObject c = false

end Lines

/-- The body lines of a 200. -/
def Upstream.lines (up : Upstream) : List String :=
  match up with
  | .unreachable _ => []
  | .answers status _ lines _ => if status = 200 then lines else []

/-- The stream says what the lines say: nothing is yielded before an exception, one
finished event ends it, the text is that of the chunks, and a success was delivered. -/
structure Translates (loads : String → Loaded) (lines : List String) (b : Behaviour) :
    Prop where
  raises : b.ending ≠ .normal → b.events = []
  ends : b.ending = .normal → ∃ init last, b.events = init ++ [last] ∧
    last.finished = true ∧ ∀ e ∈ init, e.finished = false
  text : b.ending = .normal → String.join (b.events.map (·.text)) =
    String.join ((chunksBefore loads lines).map fun c => (choice c).1)
  success : b.ending = .normal → ∀ e ∈ b.events, e.finished = true → e.error = none →
    Delivered loads lines

/-- Where reading stops decides. Before `[DONE]` or the end of the body there is no error
object; a body that just ends has had a finish reason; an exception of `json.loads` has no
text before it. -/
def Upstream.Conclusive (loads : String → Loaded) (up : Upstream) : Prop :=
  match up with
  | .unreachable _ => True
  | .answers status _ lines cut =>
      status = 200 →
        match lines.dropWhile (quiet loads) with
        | [] =>
            cut = none →
              (∃ c ∈ chunksBefore loads lines, (choice c).2.isSome = true) ∧
                ∀ c ∈ chunksBefore loads lines, isErrorObject c = false
        | l :: _ =>
            if isDone l then ∀ c ∈ chunksBefore loads lines, isErrorObject c = false
            else
              ∀ c ∈ (lines.takeWhile (quiet loads)).filterMap (chunkOf loads),
                (choice c).1 = ""

/-! ## §2  Reading the lines -/

section Reading

variable {loads : String → Loaded} {requestId : String}

/-- What a quiet line does. -/
def absorbLine (loads : String → Loaded) (requestId : String) (r : Reading)
    (line : String) : Reading :=
  match chunkOf loads line with
  | none => r
  | some chunk => r.absorb requestId chunk

theorem readLine_of_quiet {line : String} (h : quiet loads line = true) (r : Reading) :
    Reading.readLine requestId loads r line = .ok (absorbLine loads requestId r line) := by
  unfold quiet isDone failsOn at h
  unfold Reading.readLine absorbLine chunkOf
  cases hp : payload line with
  | none => rfl
  | some p =>
      rw [hp] at h
      dsimp only at h ⊢
      cases hd : decode loads p with
      | error text => simp [hd] at h
      | ok chunk =>
          have hdone : p ≠ doneMarker := by
            rintro rfl
            simp at h
          rw [if_neg hdone]
          cases chunk <;> rfl

theorem readLine_of_done {line : String} (h : isDone line = true) (r : Reading) :
    Reading.readLine requestId loads r line = .error .done := by
  have hp : payload line = some doneMarker := of_decide_eq_true h
  unfold Reading.readLine
  rw [hp]
  exact if_pos rfl

theorem readLine_of_fails {line : String} (hdone : isDone line = false) {text : String}
    (h : failsOn loads line = some text) (r : Reading) :
    Reading.readLine requestId loads r line = .error (.raised text) := by
  unfold failsOn at h
  unfold Reading.readLine
  cases hp : payload line with
  | none =>
      rw [hp] at h
      cases h
  | some p =>
      rw [hp] at h
      have hne : p ≠ doneMarker := by
        rintro rfl
        exact (of_decide_eq_false hdone) hp
      dsimp only at h ⊢
      rw [if_neg hne]
      cases hd : decode loads p with
      | ok chunk =>
          rw [hd] at h
          cases h
      | error err =>
          rw [hd] at h
          exact congrArg (fun x => Except.error (ReadEnd.raised x)) (Option.some_inj.mp h)

/-- A line that is not quiet is `[DONE]` or one `json.loads` fails on. -/
theorem not_quiet {line : String} (h : quiet loads line = false) :
    isDone line = true ∨ isDone line = false ∧ ∃ text, failsOn loads line = some text := by
  unfold quiet at h
  cases hdone : isDone line with
  | true => exact .inl rfl
  | false =>
      refine .inr ⟨rfl, Option.isSome_iff_exists.mp ?_⟩
      rw [hdone, Bool.not_false, Bool.true_and] at h
      cases hf : failsOn loads line with
      | some text => rfl
      | none => simp [hf] at h

/-- A stretch of quiet lines goes through. -/
theorem step_quiet (requestId : String) {lines : List String}
    (h : ∀ l ∈ lines, quiet loads l = true) :
    ∀ l ∈ lines, ∀ r, Reading.readLine requestId loads r l =
      .ok (absorbLine loads requestId r l) :=
  fun l hl => readLine_of_quiet (h l hl)

/-- What a stretch of chunks leaves behind. -/
def deltas (requestId : String) (chunks : List Dict) : List TokenEvent :=
  ((chunks.map fun c => (choice c).1).filter (· ≠ "")).map fun text =>
    { requestId := requestId, text := text }

theorem foldl_absorbLine (lines : List String) (r : Reading) :
    lines.foldl (absorbLine loads requestId) r =
      (lines.filterMap (chunkOf loads)).foldl (Reading.absorb requestId) r := by
  rw [List.foldl_filterMap]
  congr 1
  funext r l
  unfold absorbLine
  cases chunkOf loads l <;> rfl

theorem absorb_events (requestId : String) (r : Reading) (c : Dict) :
    (r.absorb requestId c).events = r.events ++ deltas requestId [c] ∧
      (r.absorb requestId c).started = (r.started || decide ((choice c).1 ≠ "")) := by
  unfold Reading.absorb deltas
  by_cases htext : (choice c).1 = "" <;> simp [htext]

theorem deltas_append (requestId : String) (cs ds : List Dict) :
    deltas requestId (cs ++ ds) = deltas requestId cs ++ deltas requestId ds := by
  unfold deltas
  rw [List.map_append, List.filter_append, List.map_append]

/-- The deltas are those of the chunks, and there are some once the stream has started. -/
theorem foldl_absorb (requestId : String) (chunks : List Dict) :
    (chunks.foldl (Reading.absorb requestId) .initial).events = deltas requestId chunks ∧
      (chunks.foldl (Reading.absorb requestId) .initial).started =
        chunks.any fun c => (choice c).1 ≠ "" := by
  induction chunks using List.reverseRecOn with
  | nil => exact ⟨rfl, rfl⟩
  | append_singleton chunks c ih =>
      obtain ⟨hevents, hstarted⟩ := absorb_events requestId
        (chunks.foldl (Reading.absorb requestId) .initial) c
      rw [List.foldl_append, List.foldl_cons, List.foldl_nil]
      constructor
      · rw [hevents, ih.1, deltas_append]
      · rw [hstarted, ih.2, List.any_append, List.any_cons, List.any_nil, Bool.or_false]

theorem deltas_unfinished (chunks : List Dict) :
    ∀ e ∈ deltas requestId chunks, e.finished = false := by
  intro e he
  obtain ⟨text, -, rfl⟩ := List.mem_map.mp he
  rfl

theorem deltas_eq_nil_iff (chunks : List Dict) :
    deltas requestId chunks = [] ↔ ∀ c ∈ chunks, (choice c).1 = "" := by
  unfold deltas
  rw [List.map_eq_nil_iff, List.filter_eq_nil_iff, List.forall_mem_map]
  simp

theorem join_deltas (chunks : List Dict) :
    String.join ((deltas requestId chunks).map (·.text)) =
      String.join (chunks.map fun c => (choice c).1) := by
  induction chunks with
  | nil => rfl
  | cons c chunks ih =>
      have hcons := deltas_append requestId [c] chunks
      rw [List.singleton_append] at hcons
      rw [hcons, List.map_append, String.join_append, ih, List.map_cons, String.join_cons]
      congr 1
      unfold deltas
      by_cases htext : (choice c).1 = "" <;> simp [htext]

end Reading

/-! ## §3  Faithful translation -/

variable {loads : String → Loaded}

theorem quiet_notDone {l : String} (h : quiet loads l = true) : (! isDone l) = true :=
  (Bool.and_eq_true _ _ ▸ h).1

/-- Before `[DONE]`, or the end, there are the quiet lines. -/
theorem chunksBefore_quiet {pre : List String} (h : ∀ l ∈ pre, quiet loads l = true)
    (rest : List String) (hrest : ∀ l ∈ rest.head?, isDone l = true) :
    chunksBefore loads (pre ++ rest) = pre.filterMap (chunkOf loads) := by
  unfold chunksBefore
  rw [List.takeWhile_append_of_pos fun l hl => quiet_notDone (h l hl)]
  have hnil : rest.takeWhile (! isDone ·) = [] := by
    cases rest with
    | nil => rfl
    | cons l rest => simp [hrest l rfl]
  rw [hnil, List.append_nil]

/-- A normal end behind some deltas: the text is theirs, and what is reported is decided by
the last event. -/
theorem translates_normal (requestId : String) {lines : List String} {chunks : List Dict}
    (hchunks : chunksBefore loads lines = chunks) (last : TokenEvent)
    (hlast : last.finished = true) (htext : last.text = "") :
    Translates loads lines ⟨deltas requestId chunks ++ [last], .normal⟩ ↔
      (last.error = none → Delivered loads lines) := by
  constructor
  · intro h herror
    exact h.success rfl last (List.mem_append_right _ (List.mem_singleton_self _)) hlast herror
  · intro h
    refine ⟨fun hne => absurd rfl hne, fun _ => ⟨_, last, rfl, hlast, deltas_unfinished _⟩,
      fun _ => ?_, fun _ e he hfin herror => ?_⟩
    · rw [List.map_append, String.join_append, join_deltas, hchunks]
      simp [htext]
    · rcases List.mem_append.mp he with he | he
      · rw [deltas_unfinished chunks e he] at hfin
        cases hfin
      · obtain rfl := List.mem_singleton.mp he
        exact h herror

/-- An exception is only allowed before any event. -/
theorem translates_raise {lines : List String} {b : Behaviour} (h : b.ending ≠ .normal) :
    Translates loads lines b ↔ b.events = [] := by
  constructor
  · intro ht
    exact ht.raises h
  · intro hnil
    exact ⟨fun _ => hnil, fun hn => absurd hn h, fun hn => absurd hn h, fun hn => absurd hn h⟩

/-- `generate` behind an open response, by how reading its lines ended. -/
theorem generate_lines {b : OpenAICompatBackend} (hopen : b.closed = false)
    {req : GenerateRequest} {lines : List String} {r : Reading} {stopped : Option ReadEnd}
    (hread : readUntil (Reading.readLine req.requestId loads) lines .initial = (r, stopped))
    (model body : String) (cut : Option HttpError) :
    b.generate loads req model (.answers 200 body lines cut) =
      match stopped, cut with
      | some (.raised text), _ => ⟨r.events, .exception text⟩
      | none, some e =>
          if r.started then
            ⟨r.events ++ [.failure req.requestId (b.transportError e).str (some .abort)],
              .normal⟩
          else ⟨r.events, .backendError (b.transportError e)⟩
      | _, _ =>
          ⟨r.events ++ [{ requestId := req.requestId, finished := true
                          finishReason := some (r.finishReason.getD .stop)
                          usage := normaliseUsage r.usage }], .normal⟩ := by
  unfold OpenAICompatBackend.generate
  simp only [hopen, Bool.false_eq_true, if_false, ne_eq, not_true_eq_false, hread]
  cases stopped with
  | none => cases cut <;> rfl
  | some e => cases e <;> cases cut <;> rfl

/-- A body that is read to its end. -/
theorem translates_read_out {b : OpenAICompatBackend} (hopen : b.closed = false)
    {lines : List String} (hquiet : ∀ l ∈ lines, quiet loads l = true)
    (req : GenerateRequest) (model body : String) (cut : Option HttpError) :
    Translates loads lines (b.generate loads req model (.answers 200 body lines cut)) ↔
      (cut = none → (∃ c ∈ chunksBefore loads lines, (choice c).2.isSome = true) ∧
        ∀ c ∈ chunksBefore loads lines, isErrorObject c = false) := by
  have hread := readUntil.of_ok lines (step_quiet req.requestId hquiet)
    Reading.initial
  rw [foldl_absorbLine] at hread
  obtain ⟨hevents, hstarted⟩ := foldl_absorb req.requestId
    (lines.filterMap (chunkOf loads))
  have hchunks := chunksBefore_quiet hquiet [] (by simp)
  rw [List.append_nil] at hchunks
  rw [generate_lines hopen hread]
  cases cut with
  | none =>
      dsimp only
      rw [hevents, translates_normal req.requestId hchunks _ rfl rfl]
      -- no line is `[DONE]`
      have hnone : ¬ ∃ l ∈ lines, isDone l = true := by
        rintro ⟨l, hl, hdone⟩
        have hnot := quiet_notDone (hquiet l hl)
        rw [hdone] at hnot
        cases hnot
      unfold Delivered
      simp only [hnone, false_or, forall_const]
  | some e =>
      dsimp only
      refine iff_of_true ?_ (fun h => absurd h (Option.some_ne_none _))
      by_cases hs : ((lines.filterMap (chunkOf loads)).foldl
          (Reading.absorb req.requestId) .initial).started = true
      · rw [if_pos hs, hevents, translates_normal req.requestId hchunks _ rfl rfl]
        intro herror
        cases herror
      · rw [if_neg hs, hevents, translates_raise (by simp), deltas_eq_nil_iff]
        rw [hstarted, List.any_eq_true] at hs
        intro c hc
        by_contra htext
        exact hs ⟨c, hc, decide_eq_true htext⟩

/-- A body whose reading stops at a line. -/
theorem translates_stopped {b : OpenAICompatBackend} (hopen : b.closed = false)
    {pre : List String} (hquiet : ∀ l ∈ pre, quiet loads l = true) {l : String}
    (hl : quiet loads l = false) (rest : List String) (req : GenerateRequest)
    (model body : String) (cut : Option HttpError) :
    Translates loads (pre ++ l :: rest)
        (b.generate loads req model (.answers 200 body (pre ++ l :: rest) cut)) ↔
      if isDone l then
        ∀ c ∈ chunksBefore loads (pre ++ l :: rest), isErrorObject c = false
      else ∀ c ∈ pre.filterMap (chunkOf loads), (choice c).1 = "" := by
  obtain ⟨hevents, -⟩ := foldl_absorb req.requestId
    (pre.filterMap (chunkOf loads))
  rcases not_quiet hl with hdone | ⟨hdone, text, hfails⟩
  · have hread := readUntil.of_stop pre (step_quiet req.requestId hquiet)
      (readLine_of_done hdone) rest Reading.initial
    rw [foldl_absorbLine] at hread
    have hchunks := chunksBefore_quiet hquiet (l :: rest)
      (by simpa using hdone)
    rw [generate_lines hopen hread, if_pos hdone]
    dsimp only
    rw [hevents, translates_normal req.requestId hchunks _ rfl rfl]
    have hsome : ∃ x ∈ pre ++ l :: rest, isDone x = true := ⟨l, by simp, hdone⟩
    unfold Delivered
    simp only [hsome, true_or, true_and, forall_const]
  · have hread := readUntil.of_stop pre (step_quiet req.requestId hquiet)
      (readLine_of_fails hdone hfails) rest Reading.initial
    rw [foldl_absorbLine] at hread
    rw [generate_lines hopen hread, if_neg (by rw [hdone]; exact Bool.false_ne_true)]
    dsimp only
    rw [translates_raise (by simp), hevents, deltas_eq_nil_iff]

/-- `generate` translates an upstream stream faithfully exactly if the backend is closed or
the stream is conclusive. -/
theorem translates_iff (loads : String → Loaded) (b : OpenAICompatBackend)
    (req : GenerateRequest) (model : String) (up : Upstream) :
    Translates loads up.lines (b.generate loads req model up) ↔
      b.closed = true ∨ up.Conclusive loads := by
  cases hopen : b.closed with
  | true =>
      have hgen : ∃ e, b.generate loads req model up = ⟨[], .backendError e⟩ := by
        unfold OpenAICompatBackend.generate
        rw [hopen]
        exact ⟨_, rfl⟩
      obtain ⟨e, hgen⟩ := hgen
      rw [hgen, translates_raise (by simp)]
      simp
  | false =>
      simp only [Bool.false_eq_true, false_or]
      cases up with
      | unreachable e =>
          have hgen : b.generate loads req model (.unreachable e) =
              ⟨[], .backendError (b.transportError e)⟩ := by
            unfold OpenAICompatBackend.generate
            rw [hopen]
            rfl
          rw [hgen, translates_raise (by simp)]
          exact iff_of_true rfl trivial
      | answers status body lines cut =>
          unfold Upstream.Conclusive Upstream.lines
          by_cases hok : status = 200
          · subst hok
            simp only [if_true, forall_const]
            have hsplit := List.takeWhile_append_dropWhile (p := quiet loads) (l := lines)
            have hquiet : ∀ l ∈ lines.takeWhile (quiet loads), quiet loads l = true :=
              fun l hl => List.mem_takeWhile_imp hl
            cases hrest : lines.dropWhile (quiet loads) with
            | nil =>
                rw [hrest, List.append_nil] at hsplit
                rw [hsplit] at hquiet
                exact translates_read_out hopen hquiet req model body cut
            | cons l rest =>
                have hl : quiet loads l = false := by
                  have hhead := List.head_dropWhile_not (quiet loads) (l := lines)
                    (by rw [hrest]; exact List.cons_ne_nil _ _)
                  simpa [hrest] using hhead
                rw [hrest] at hsplit
                have h := translates_stopped hopen hquiet hl rest req model body cut
                rw [hsplit] at h
                exact h
          · have hgen : b.generate loads req model (.answers status body lines cut) =
                ⟨[], .backendError (b.statusError status body model)⟩ := by
              unfold OpenAICompatBackend.generate
              rw [hopen]
              exact if_pos hok
            rw [hgen, translates_raise (by simp)]
            exact iff_of_true rfl fun h => absurd h hok

/-- One chunk of text, and then the body ends. -/
def truncatedLines : List String :=
  ["data: \x7b\"choices\": [\x7b\"text\": \"Hello\"\x7d]\x7d"]

/-- `json.loads` on that chunk. -/
def helloLoads (_ : String) : Loaded :=
  .value (.obj [("choices", .arr [.obj [("text", .str "Hello")]])])

/-- A truncated stream is reported as a completion that stopped. -/
theorem truncated_completes :
    ¬ Translates helloLoads truncatedLines
      (OpenAICompatBackend.generate ⟨"vllm", false⟩ helloLoads ⟨"r", "t", "m"⟩ "'m'"
        (.answers 200 "" truncatedLines none)) := by
  intro h
  have hdelivered := h.success rfl
    { requestId := "r", finished := true, finishReason := some .stop }
    (by decide +kernel) rfl rfl
  have hdone : ¬ ∃ l ∈ truncatedLines, isDone l = true := by decide +kernel
  have hreason : ¬ ∃ c ∈ chunksBefore helloLoads truncatedLines,
      (choice c).2.isSome = true := by decide +kernel
  rcases hdelivered.1 with hd | hr
  · exact hdone hd
  · exact hreason hr

end TurboServe.Gateway

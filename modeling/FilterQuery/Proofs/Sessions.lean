import FilterQuery.Proofs.Offsets
import FilterQuery.Scanner.Session
import FilterQuery.Scanner.Split

/-!
Runs of a scanning session. Beside the session stands a log of all failures, each with its offset
and the innermost rule that was open. As long as the cursor is only set to boundaries every request
has an answer and ends at a boundary, and what the session reports as its furthest failure is the
first of those in the log that have the greatest offset.
-/
namespace FilterQuery.Scanner

open Text

/-- A failed match: where it gave up, and the rule that it is charged to. -/
abbrev Failure := Nat × String

/-- No failure of the log is beyond this one, and those before it are not even as far. -/
def IsFirstFurthest (log : List Failure) (f : Failure) : Prop :=
  ∃ earlier later, log = earlier ++ f :: later ∧
    (∀ g ∈ earlier, g.1 < f.1) ∧ ∀ g ∈ later, g.1 ≤ f.1

namespace IsFirstFurthest

variable {log : List Failure} {f g : Failure}

theorem singleton (f : Failure) : IsFirstFurthest [f] f := ⟨[], [], rfl, by simp, by simp⟩

theorem le (h : IsFirstFurthest log f) (hg : g ∈ log) : g.1 ≤ f.1 := by
  obtain ⟨earlier, later, rfl, hearlier, hlater⟩ := h
  rcases List.mem_append.mp hg with hg | hg
  · exact (hearlier g hg).le
  · rcases List.mem_cons.mp hg with rfl | hg
    · exact le_rfl
    · exact hlater g hg

theorem mem (h : IsFirstFurthest log f) : f ∈ log := by
  obtain ⟨earlier, later, rfl, -, -⟩ := h
  simp

/-- A failure that is not beyond the record leaves it. -/
theorem keep (h : IsFirstFurthest log f) (hg : g.1 ≤ f.1) : IsFirstFurthest (log ++ [g]) f := by
  obtain ⟨earlier, later, rfl, hearlier, hlater⟩ := h
  refine ⟨earlier, later ++ [g], by simp, hearlier, ?_⟩
  intro g' hg'
  rcases List.mem_append.mp hg' with hg' | hg'
  · exact hlater g' hg'
  · rw [List.mem_singleton.mp hg']
    exact hg

/-- A failure beyond the record is the new record. -/
theorem replace (h : IsFirstFurthest log f) (hg : f.1 < g.1) : IsFirstFurthest (log ++ [g]) g :=
  ⟨log, [], rfl, fun _ hg' => (h.le hg').trans_lt hg, by simp⟩

/-- The record of a longer log is at least as far. -/
theorem mono {more : List Failure} (h : IsFirstFurthest log f)
    (h' : IsFirstFurthest (log ++ more) g) : f.1 ≤ g.1 :=
  h'.le (List.mem_append_left more h.mem)

end IsFirstFurthest

namespace Request

/-- The request does not set the cursor to a place that is not between two characters. -/
def StaysIn (text : List Char) : Request → Prop
  | reset offset => IsBoundary text offset
  | _ => True

/-- The requests that fail where they do not find what they ask for. -/
def isMatch : Request → Bool
  | literal _ | keyword _ | exactWord _ | requireGap | identifier | quoted | number | requireEnd
  | fail => true
  | skipGap | atEnd | excerpt _ | wholeText | enter _ | leave | reset _ => false

/-- The answer to the request is that the match has failed. -/
def Fails (r : Request) (a : Answer) : Prop := r.isMatch = true ∧ (a = .flag false ∨ a = .nothing)

/-- The rules that are entered and not yet left, the innermost first. -/
def opens (opened : List String) : Request → List String
  | enter rule => rule :: opened
  | leave => opened.tail
  | _ => opened

end Request

namespace Session

variable {α : Type} {text : List Char} {log : List Failure} {opened : List String} {s : Session}
  {r : Request} {rs : List Request}

/-- Where a terminal gives up that is missing at the cursor. -/
def missed (s : Session) (t : Terminal α) : Option Nat :=
  match (dropBytes? s.offset s.text).map t with
  | some (.missing passed) => some (s.offset + byteSize passed)
  | _ => none

/-- The offset of the failure that a request records. -/
def failure? (s : Session) : Request → Option Nat
  | .literal text => s.missed (Terminal.literal text)
  | .keyword word => s.missed (Terminal.keyword word)
  | .exactWord word => s.missed (Terminal.exactWord word)
  | .requireGap => s.missed Terminal.someGap
  | .identifier => s.missed Terminal.identifier
  | .quoted => s.missed Terminal.quoted
  | .number => s.missed Terminal.number
  | .requireEnd => if s.isAtEnd then none else some s.offset
  | .fail => some s.offset
  | .skipGap | .atEnd | .excerpt _ | .wholeText | .enter _ | .leave | .reset _ => none

/-- The entry of the log for a failure, if there is one. -/
def entry (opened : List String) (failure : Option Nat) : List Failure :=
  (failure.map fun offset => (offset, opened.head?.getD "Grammar")).toList

/-- All requests one after the other. -/
def run (s : Session) : List Request → Option Session
  | [] => some s
  | r :: rs => (s.perform r).bind fun answered => answered.2.run rs

/-- The failures of a run in the order in which they arise. -/
def failuresFrom (s : Session) (opened : List String) : List Request → List Failure
  | [] => []
  | r :: rs =>
    entry opened (s.failure? r) ++
      ((s.perform r).map fun answered => answered.2.failuresFrom (r.opens opened) rs).getD []

def failures (text : List Char) (rs : List Request) : List Failure :=
  (start text).failuresFrom [] rs

/-! ## The invariant -/

/-- The session stands at a boundary of the text, knows which rules are open, and has the record
of the failures so far. -/
structure Sound (text : List Char) (log : List Failure) (opened : List String) (s : Session) :
    Prop where
  ofText : s.text = text
  boundary : IsBoundary text s.offset
  rules : s.trail.rules = opened
  peak : (log = [] ∧ s.trail.furthest = none) ∨
    ∃ f, IsFirstFurthest log f ∧ s.trail.furthest = some f

namespace Sound

theorem start (text : List Char) : (Session.start text).Sound text [] [] where
  ofText := rfl
  boundary := ⟨[], text, rfl, rfl⟩
  rules := rfl
  peak := Or.inl ⟨rfl, rfl⟩

/-- Recording a failure, wherever it is. -/
theorem record (h : s.Sound text log opened) (offset : Nat) :
    Sound text (log ++ entry opened (some offset)) opened
      { s with trail := s.trail.fail offset } where
  ofText := h.ofText
  boundary := h.boundary
  rules := by
    show (s.trail.fail offset).rules = opened
    unfold Trail.fail
    split <;> exact h.rules
  peak := by
    have hrule : s.trail.innermost = opened.head?.getD "Grammar" := by
      rw [Trail.innermost, h.rules]
      rfl
    refine Or.inr ?_
    show ∃ f, IsFirstFurthest (log ++ [(offset, opened.head?.getD "Grammar")]) f ∧
      (s.trail.fail offset).furthest = some f
    rcases h.peak with ⟨rfl, hnone⟩ | ⟨f, hf, hsome⟩
    · exact ⟨_, .singleton _, by simp [Trail.fail, hnone, hrule]⟩
    · by_cases hbeyond : f.1 < offset
      · exact ⟨_, hf.replace hbeyond, by simp [Trail.fail, hsome, hbeyond, hrule]⟩
      · exact ⟨f, hf.keep (Nat.le_of_not_lt hbeyond), by simp [Trail.fail, hsome, hbeyond]⟩

/-- A terminal is found and the cursor moves past it, or it is missing and the cursor stays. -/
theorem read (h : s.Sound text log opened) {t : Terminal α} (ht : t.Splits)
    (answer : Option α → Answer) :
    ∃ a s', s.read t answer = some (answer a, s') ∧
      s'.Sound text (log ++ entry opened (s.missed t)) opened ∧
      (a = none ↔ (s.missed t).isSome) ∧ (a = none → s'.offset = s.offset) := by
  obtain ⟨before, ahead, htext, hoffset⟩ := h.boundary
  have hahead : dropBytes? s.offset s.text = some ahead := by
    rw [h.ofText, htext, hoffset, dropBytes?_append]
  cases hread : t ahead with
  | missing passed =>
    have hmissed : s.missed t = some (s.offset + byteSize passed) := by
      simp [missed, hahead, hread]
    refine ⟨none, { s with trail := s.trail.fail (s.offset + byteSize passed) }, ?_, ?_, ?_, ?_⟩
    · simp [Session.read, hahead, Cursor.read, hread]
    · exact hmissed ▸ h.record _
    · simp [hmissed]
    · exact fun _ => rfl
  | found a lexeme rest =>
    have hmissed : s.missed t = none := by simp [missed, hahead, hread]
    refine ⟨some a, { s with offset := s.offset + byteSize lexeme }, ?_, ?_, ?_, ?_⟩
    · simp [Session.read, hahead, Cursor.read, hread]
    · refine ⟨h.ofText, ⟨before ++ lexeme, rest, ?_, ?_⟩, h.rules, ?_⟩
      · rw [htext, List.append_assoc, ht _ _ _ _ hread]
      · rw [hoffset, byteSize_append]
      · simpa [hmissed, entry] using h.peak
    · simp [hmissed]
    · intro hnone
      cases hnone

end Sound

/-- The request is answered, the session is sound with the failure added to the log, and a match
that fails leaves the cursor. -/
structure Answers (text : List Char) (log : List Failure) (opened : List String) (s : Session)
    (r : Request) (a : Answer) (s' : Session) : Prop where
  performs : s.perform r = some (a, s')
  sound : s'.Sound text (log ++ entry opened (s.failure? r)) (r.opens opened)
  fails_iff : r.Fails a ↔ (s.failure? r).isSome
  stays : r.Fails a → s'.offset = s.offset

theorem fails_flag (hr : r.isMatch = true) (a : Option α) : r.Fails (flag a) ↔ a = none := by
  cases a <;> simp [Request.Fails, hr, flag]

theorem fails_textOrNothing (hr : r.isMatch = true) (a : Option String) :
    r.Fails (textOrNothing a) ↔ a = none := by
  cases a <;> simp [Request.Fails, hr, textOrNothing]

theorem fails_numeralOrNothing (hr : r.isMatch = true) (a : Option Terminal.Numeral) :
    r.Fails (numeralOrNothing a) ↔ a = none := by
  cases a <;> simp [Request.Fails, hr, numeralOrNothing]

namespace Sound

/-- A request that looks for a terminal fails where the terminal is missing. -/
theorem looksFor (h : s.Sound text log opened) {t : Terminal α} (ht : t.Splits)
    {answer : Option α → Answer} (hperform : s.perform r = s.read t answer)
    (hfailure : s.failure? r = s.missed t) (hopens : r.opens opened = opened)
    (hfails : ∀ a, r.Fails (answer a) ↔ a = none) :
    ∃ a s', Answers text log opened s r a s' := by
  obtain ⟨a, s', hread, hsound, hnone, hstays⟩ := h.read ht answer
  refine ⟨answer a, s', hperform.trans hread, ?_, ?_, fun hfail => hstays ((hfails a).mp hfail)⟩
  · rw [hfailure, hopens]
    exact hsound
  · rw [hfailure, hfails, hnone]

/-- A request that is no match records no failure. -/
theorem silent {a : Answer} {s' : Session} (h : s'.Sound text log (r.opens opened))
    (hperform : s.perform r = some (a, s')) (hfailure : s.failure? r = none)
    (hr : r.isMatch = false) : ∃ a s', Answers text log opened s r a s' := by
  have hfails : ¬ r.Fails a := fun hfail => by simp [Request.Fails, hr] at hfail
  refine ⟨a, s', hperform, ?_, ?_, fun hfail => absurd hfail hfails⟩
  · simpa [hfailure, entry] using h
  · simp [hfailure, hfails]

/-- Every request is answered that does not set the cursor into a character. -/
theorem answers (h : s.Sound text log opened) (hr : r.StaysIn text) :
    ∃ a s', Answers text log opened s r a s' := by
  cases r with
  | literal text => exact h.looksFor (Terminal.literal_splits text) rfl rfl rfl (fails_flag rfl)
  | keyword word =>
    exact h.looksFor (Terminal.wordBy_splits _ word) rfl rfl rfl (fails_flag rfl)
  | exactWord word =>
    exact h.looksFor (Terminal.wordBy_splits _ word) rfl rfl rfl (fails_flag rfl)
  | requireGap => exact h.looksFor Terminal.someGap_splits rfl rfl rfl (fails_flag rfl)
  | identifier =>
    exact h.looksFor Terminal.identifier_splits rfl rfl rfl (fails_textOrNothing rfl)
  | quoted => exact h.looksFor Terminal.quoted_splits rfl rfl rfl (fails_textOrNothing rfl)
  | number => exact h.looksFor Terminal.number_splits rfl rfl rfl (fails_numeralOrNothing rfl)
  | skipGap =>
    obtain ⟨a, s', hread, hsound, -⟩ := h.read Terminal.gap_splits fun _ => .nothing
    have hmissed : s.missed Terminal.gap = none := by
      cases hahead : dropBytes? s.offset s.text <;> simp [missed, hahead, Terminal.gap]
    rw [hmissed] at hsound
    exact silent (by simpa [entry, Request.opens] using hsound) hread rfl rfl
  | requireEnd =>
    by_cases hend : s.isAtEnd = true
    · refine ⟨.flag true, s, ?_, ?_, ?_, fun _ => rfl⟩
      · simp [Session.perform, hend]
      · simpa [failure?, hend, entry, Request.opens] using h
      · simp [Request.Fails, failure?, hend]
    · refine ⟨.flag false, s.fail, ?_, ?_, ?_, fun _ => rfl⟩
      · simp [Session.perform, hend]
      · have hrecord := h.record s.offset
        simpa [failure?, hend, Request.opens, Session.fail] using hrecord
      · simp [Request.Fails, Request.isMatch, failure?, hend]
  | fail =>
    exact ⟨.flag false, s.fail, rfl, h.record s.offset, by simp [Request.Fails, Request.isMatch,
      failure?], fun _ => rfl⟩
  | atEnd | excerpt _ | wholeText => exact silent h rfl rfl rfl
  | enter rule =>
    have hentered : ({ s with trail := s.trail.enter rule } : Session).Sound text log
        (rule :: opened) := ⟨h.ofText, h.boundary, congrArg (rule :: ·) h.rules, h.peak⟩
    exact hentered.silent rfl rfl rfl
  | leave =>
    have hleft : ({ s with trail := s.trail.leave } : Session).Sound text log opened.tail :=
      ⟨h.ofText, h.boundary, congrArg List.tail h.rules, h.peak⟩
    exact hleft.silent rfl rfl rfl
  | reset offset =>
    have hset : ({ s with offset } : Session).Sound text log opened :=
      ⟨h.ofText, hr, h.rules, h.peak⟩
    exact hset.silent rfl rfl rfl

/-- All requests are answered one after the other. -/
theorem run (h : s.Sound text log opened) (hrs : ∀ r ∈ rs, r.StaysIn text) :
    ∃ s', s.run rs = some s' ∧
      s'.Sound text (log ++ s.failuresFrom opened rs) (rs.foldl Request.opens opened) := by
  induction rs generalizing s log opened with
  | nil => exact ⟨s, rfl, by simpa [failuresFrom] using h⟩
  | cons r rs ih =>
    obtain ⟨hr, hrs⟩ := List.forall_mem_cons.mp hrs
    obtain ⟨a, s₁, hanswers⟩ := h.answers hr
    obtain ⟨s', hrun, hsound⟩ := ih hanswers.sound hrs
    refine ⟨s', ?_, ?_⟩
    · simpa [Session.run, hanswers.performs] using hrun
    · simpa [failuresFrom, hanswers.performs, List.append_assoc] using hsound

/-- Once a failure is recorded the report is the first of the furthest. -/
theorem report (h : s.Sound text log opened) (hlog : log ≠ []) :
    IsFirstFurthest log s.furthest := by
  rcases h.peak with ⟨hnil, -⟩ | ⟨f, hf, hsome⟩
  · exact absurd hnil hlog
  · rw [Session.furthest, Trail.report, hsome]
    exact hf

end Sound

/-- After any requests that set the cursor to boundaries only, the session stands at a boundary, has
an answer to the next request, stays where it is if that fails, and reports the first of the
furthest failures so far. -/
theorem run_invariant {text : List Char} {rs : List Request} (hrs : ∀ r ∈ rs, r.StaysIn text) :
    ∃ s, (start text).run rs = some s ∧ s.text = text ∧ IsBoundary text s.offset ∧
      (failures text rs ≠ [] → IsFirstFurthest (failures text rs) s.furthest) ∧
      ∀ r, r.StaysIn text → ∃ a s', s.perform r = some (a, s') ∧
        (r.Fails a ↔ (s.failure? r).isSome) ∧ (r.Fails a → s'.offset = s.offset) ∧
        (failures text rs ≠ [] → s.furthest.1 ≤ s'.furthest.1) := by
  obtain ⟨s, hrun, hsound⟩ := (Sound.start text).run hrs
  rw [List.nil_append] at hsound
  refine ⟨s, hrun, hsound.ofText, hsound.boundary, hsound.report, fun r hr => ?_⟩
  obtain ⟨a, s', hanswers⟩ := hsound.answers hr
  refine ⟨a, s', hanswers.performs, hanswers.fails_iff, hanswers.stays, fun hlog => ?_⟩
  exact (hsound.report hlog).mono (hanswers.sound.report (by simp_all [failures]))

/-- A string that is not closed fails at the end of the text, in the rule that is then open. -/
theorem run_invariant_quote :
    let text := ['n', 'é', ' ', '\'', 'x']
    let rs := [.enter "Outer", .number, .identifier, .enter "Inner", .keyword "x", .reset 4, .quoted,
      .leave, .reset 0, .requireEnd]
    (∀ r ∈ rs, r.StaysIn text) ∧
      failures text rs = [(0, "Outer"), (1, "Inner"), (6, "Inner"), (0, "Outer")] ∧
      ∃ s, (start text).run rs = some s ∧ IsBoundary text s.offset ∧
        IsFirstFurthest [(0, "Outer"), (1, "Inner"), (6, "Inner"), (0, "Outer")] s.furthest := by
  intro text rs
  have hfour : IsBoundary text 4 := ⟨['n', 'é', ' '], ['\'', 'x'], rfl, by decide⟩
  have hzero : IsBoundary text 0 := ⟨[], text, rfl, rfl⟩
  have hrs : ∀ r ∈ rs, r.StaysIn text := by simp [rs, Request.StaysIn, hfour, hzero]
  have hlog : failures text rs = [(0, "Outer"), (1, "Inner"), (6, "Inner"), (0, "Outer")] := by
    decide
  obtain ⟨s, hrun, -, hboundary, hreport, -⟩ := run_invariant hrs
  rw [hlog] at hreport
  exact ⟨hrs, hlog, s, hrun, hboundary, hreport (by simp)⟩

end Session

end FilterQuery.Scanner

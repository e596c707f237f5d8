import GraphQuery.Session
import Mathlib.Data.List.Induction

/-!
# What reaches the log of a session

The logger keeps no more than whether it is started and under which threshold. Both can be read off
the calls that came before: only what came since the last start counts, and nothing where a stop
came after it.

* `SinceStart` and `InForce` say this of the calls alone.
* `Logger.step_eq_started_iff` is what one call does to the state, and
  `Logger.run_eq_started_iff` what a session does: the logger is started under the threshold in
  force.
* `Adds` says which lines a call adds to the log after others.
* `session_logged`: every call of a session adds these lines and no others.
-/

namespace GraphQuery

/-! ### What the calls so far say -/

namespace LogCall

/-- Whether a call starts or stops the logger. -/
def isSwitch : LogCall → Bool
  | .start _ | .stop => true
  | _ => false

/-- The threshold that a call sets. -/
def threshold? : LogCall → Option Threshold
  | .start t | .setThreshold t => some t
  | _ => none

end LogCall

/-- The last start or stop of some calls is a start, under a threshold and with some calls after
it. -/
def SinceStart (calls : List LogCall) (t : Threshold) (after : List LogCall) : Prop :=
  (∃ before, calls = before ++ .start t :: after) ∧ ∀ c ∈ after, c.isSwitch = false

/-- The threshold of the most recent of the last start and what came after it, where the last start
or stop is a start. -/
def InForce (calls : List LogCall) (t : Threshold) : Prop :=
  ∃ first after, SinceStart calls first after ∧
    (after.filterMap LogCall.threshold?).getLast?.getD first = t

/-- After some calls a line of a severity is at or above the threshold in force. -/
def Admitted (calls : List LogCall) (s : Severity) : Prop :=
  ∃ least, InForce calls (.atLeast least) ∧ least.rank ≤ s.rank

/-- One line where a condition holds, and none where it does not. -/
def AddsIf (condition : Prop) (line : LogLine) (added : List LogLine) : Prop :=
  (condition → added = [line]) ∧ (¬condition → added = [])

/-- A call returns, and the lines that it adds are such. -/
def Logged.Returns (l : Logged) (P : List LogLine → Prop) : Prop :=
  ∃ added, l = .lines added ∧ P added

/-- What a call adds to the log after some others. A template that can be filled in makes a line,
and a text in a place stands in the line as it is. A template that cannot be filled in matters where
the line would be admitted. -/
def Adds (formats : Template.Formats) (before : List LogCall) : LogCall → Logged → Prop
  | .start t, l => l.Returns <|
    AddsIf (t.admits .debug)
      ⟨.debug, utf8 "Logger initialized (level=" ++ t.name ++ utf8 ", file=<none>)"⟩
  | .write s template args, l =>
    (∀ text, template = Template.place → args = [text] →
      l.Returns (AddsIf (Admitted before s) ⟨s, text⟩)) ∧
    (∀ text, Template.fill? formats args template = some text →
      l.Returns (AddsIf (Admitted before s) ⟨s, text⟩)) ∧
    (Template.fill? formats args template = none →
      (Admitted before s → l = .formatError) ∧ (¬Admitted before s → l = .lines []))
  | .compile o q, l => l.Returns fun added =>
    ((q.report o).success = false → AddsIf (Admitted before .warning)
      ⟨.warning, utf8 "AQL compilation rejected [" ++ (q.report o).code ++ utf8 "]: "
        ++ (q.report o).message⟩ added) ∧
    ((q.report o).success = true → AddsIf (o.logQueries = true ∧ Admitted before .debug)
      ⟨.debug, utf8 "Compiled AQL (" ++ decimal (q.report o).scopes ++ utf8 " scopes): "
        ++ (q.report o).statement⟩ added)
  | .setThreshold _, l | .setPattern _, l | .stop, l => l = .lines []

/-! ### One more call -/

theorem sinceStart_concat_iff {calls after : List LogCall} {c : LogCall} {t : Threshold} :
    SinceStart (calls ++ [c]) t after ↔
      (c = .start t ∧ after = []) ∨
        ∃ earlier, after = earlier ++ [c] ∧ c.isSwitch = false ∧ SinceStart calls t earlier := by
  constructor
  · rintro ⟨⟨before, heq⟩, hafter⟩
    rcases List.eq_nil_or_concat after with rfl | ⟨earlier, d, rfl⟩
    · have hlast : c = .start t := by simpa using (List.append_inj' heq rfl).2
      exact Or.inl ⟨hlast, rfl⟩
    · rw [List.concat_eq_append] at heq hafter ⊢
      rw [← List.cons_append, ← List.append_assoc] at heq
      obtain ⟨hcalls, hlast⟩ := List.append_inj' heq rfl
      obtain rfl : c = d := by simpa using hlast
      have hearlier := List.forall_mem_append.mp hafter
      refine Or.inr ⟨earlier, rfl, ?_, ⟨before, hcalls⟩, hearlier.1⟩
      exact hearlier.2 c List.mem_cons_self
  · rintro (⟨rfl, rfl⟩ | ⟨earlier, rfl, hc, ⟨before, rfl⟩, hearlier⟩)
    · exact ⟨⟨calls, rfl⟩, fun _ h => nomatch h⟩
    · refine ⟨⟨before, by simp⟩, List.forall_mem_append.mpr ⟨hearlier, ?_⟩⟩
      exact List.forall_mem_singleton.mpr hc

/-- A start sets the threshold, whatever was in force. -/
theorem inForce_concat_start_iff {calls : List LogCall} {t t' : Threshold} :
    InForce (calls ++ [.start t]) t' ↔ t = t' := by
  constructor
  · rintro ⟨first, after, hsince, hlast⟩
    rcases sinceStart_concat_iff.mp hsince with ⟨heq, rfl⟩ | ⟨_, _, hswitch, _⟩
    · cases heq
      exact hlast
    · cases hswitch
  · rintro rfl
    exact ⟨t, [], sinceStart_concat_iff.mpr (Or.inl ⟨rfl, rfl⟩), rfl⟩

/-- After a stop no threshold is in force. -/
theorem not_inForce_concat_stop {calls : List LogCall} {t : Threshold} :
    ¬InForce (calls ++ [.stop]) t := by
  rintro ⟨first, after, hsince, _⟩
  rcases sinceStart_concat_iff.mp hsince with ⟨heq, _⟩ | ⟨_, _, hswitch, _⟩
  · cases heq
  · cases hswitch

/-- Any other call changes the threshold that is in force, if there is one, and puts none in
force. -/
theorem inForce_concat_iff {calls : List LogCall} {c : LogCall} (hc : c.isSwitch = false)
    {t' : Threshold} :
    InForce (calls ++ [c]) t' ↔ ∃ t, InForce calls t ∧ c.threshold?.getD t = t' := by
  have hlast : ∀ (earlier : List LogCall) (first : Threshold),
      ((earlier ++ [c]).filterMap LogCall.threshold?).getLast?.getD first =
        c.threshold?.getD ((earlier.filterMap LogCall.threshold?).getLast?.getD first) := by
    intro earlier first
    rw [List.filterMap_append]
    cases h : c.threshold? with
    | none => simp [h]
    | some t => simp [h]
  constructor
  · rintro ⟨first, after, hsince, rfl⟩
    rcases sinceStart_concat_iff.mp hsince with ⟨rfl, _⟩ | ⟨earlier, rfl, _, hearlier⟩
    · cases hc
    · exact ⟨_, ⟨first, earlier, hearlier, rfl⟩, (hlast earlier first).symm⟩
  · rintro ⟨t, ⟨first, earlier, hearlier, rfl⟩, rfl⟩
    refine ⟨first, earlier ++ [c], ?_, hlast earlier first⟩
    exact sinceStart_concat_iff.mpr (Or.inr ⟨earlier, rfl, hc, hearlier⟩)

/-! ### The state of the logger -/

namespace Logger

section State

variable {formats : Template.Formats}

theorem run_append (l : Logger) (calls more : List LogCall) :
    l.run formats (calls ++ more) =
      (((l.run formats calls).1.run formats more).1,
        (l.run formats calls).2 ++ ((l.run formats calls).1.run formats more).2) := by
  induction calls generalizing l with
  | nil => rfl
  | cons c calls ih =>
    simp only [List.cons_append, run, ih]

theorem length_run (l : Logger) (calls : List LogCall) :
    (l.run formats calls).2.length = calls.length := by
  induction calls generalizing l with
  | nil => rfl
  | cons c calls ih => simp only [run, List.length_cons, ih]

/-- What a call that neither starts nor stops the logger does to its state. -/
theorem step_eq_started_iff {c : LogCall} (hc : c.isSwitch = false) {l : Logger} {t' : Threshold} :
    (l.step formats c).1 = .started t' ↔ ∃ t, l = .started t ∧ c.threshold?.getD t = t' := by
  cases c with
  | start t => cases hc
  | stop => cases hc
  | setThreshold t => cases l <;> simp [step, setThreshold, LogCall.threshold?]
  | setPattern pattern => simp [step, LogCall.threshold?]
  | write s template args => simp [step, LogCall.threshold?]
  | compile o q => simp [step, LogCall.threshold?]

/-- **After a session the logger is started under the threshold in force**, and silent where none
is. -/
theorem run_eq_started_iff (calls : List LogCall) (t : Threshold) :
    (silent.run formats calls).1 = .started t ↔ InForce calls t := by
  induction calls using List.reverseRecOn generalizing t with
  | nil =>
    refine ⟨fun h => (nomatch h), ?_⟩
    rintro ⟨first, after, ⟨⟨before, heq⟩, _⟩, _⟩
    simp at heq
  | append_singleton calls c ih =>
    have hstep : (silent.run formats (calls ++ [c])).1 = ((silent.run formats calls).1.step formats c).1 := by
      rw [run_append]
      rfl
    rw [hstep]
    by_cases hc : c.isSwitch = false
    · rw [step_eq_started_iff hc, inForce_concat_iff hc]
      exact exists_congr fun t => and_congr_left fun _ => ih t
    · cases c with
      | start first =>
        rw [inForce_concat_start_iff]
        exact ⟨fun h => started.inj h, fun h => congrArg started h⟩
      | stop => exact ⟨fun h => (nomatch h), fun h => absurd h not_inForce_concat_stop⟩
      | _ => exact absurd rfl hc

end State

theorem isStarted_iff {l : Logger} : l.isStarted = true ↔ ∃ t, l = .started t := by
  cases l <;> simp [isStarted]

theorem admits_iff {l : Logger} {s : Severity} :
    l.admits s = true ↔ ∃ least, l = .started (.atLeast least) ∧ least.rank ≤ s.rank := by
  cases l with
  | silent => simp [admits]
  | started t => cases t <;> simp [admits, Threshold.admits]

/-! ### Lines -/

theorem addsIf_write {condition : Prop} {l : Logger} {line : LogLine}
    (h : l.admits line.severity = true ↔ condition) : AddsIf condition line (l.write line) := by
  constructor
  · intro hcondition
    rw [write, if_pos (h.mpr hcondition)]
  · intro hcondition
    rw [write, if_neg (mt h.mp hcondition)]

theorem call_of_fill? {formats : Template.Formats} {template text : Text} {args : List Text}
    (h : Template.fill? formats args template = some text) (l : Logger) (s : Severity) :
    l.call formats s template args = .lines (l.write ⟨s, text⟩) := by
  rw [call, h, write]
  cases l.admits s <;> rfl

theorem start_eq (t : Threshold) :
    start (fun _ => none) [] t = ⟨.started t, (started t).write
      ⟨.debug, utf8 "Logger initialized (level=" ++ t.name ++ utf8 ", file=<none>)"⟩, []⟩ := by
  have hend : utf8 ", file=" ++ (utf8 "<none>" ++ utf8 ")") = utf8 ", file=<none>)" := by
    decide +kernel
  rw [start]
  simp [log, startForm, Template.Form.fill, hend]

theorem compileLines_of_ok {o : Options} {q : Query} {s : Statement} (h : q.compile o = .ok s)
    (l : Logger) :
    l.compileLines o q =
      if o.logQueries then
        l.write ⟨.debug, utf8 "Compiled AQL (" ++ decimal s.scopes ++ utf8 " scopes): " ++ s.text⟩
      else [] := by
  simp [compileLines, h, log, compiledForm, Template.Form.fill]

theorem compileLines_of_error {o : Options} {q : Query} {e : QueryError}
    (h : q.compile o = .error e) (l : Logger) :
    l.compileLines o q =
      l.write ⟨.warning,
        utf8 "AQL compilation rejected [" ++ e.code ++ utf8 "]: " ++ e.message⟩ := by
  simp [compileLines, h, log, rejectedForm, Template.Form.fill]

/-- What one call adds to the log, in the state that the calls before it have left. -/
theorem adds_step {formats : Template.Formats} {before : List LogCall} {l : Logger}
    (hstate : ∀ t, l = .started t ↔ InForce before t) (c : LogCall) :
    Adds formats before c (l.step formats c).2 := by
  have hadmits : ∀ s, l.admits s = true ↔ Admitted before s := by
    intro s
    rw [admits_iff]
    exact exists_congr fun least => and_congr_left fun _ => hstate (.atLeast least)
  cases c with
  | start t =>
    have hline := start_eq t
    simp only [step, Adds, hline]
    exact ⟨_, rfl, addsIf_write Iff.rfl⟩
  | setThreshold t => rfl
  | setPattern pattern => rfl
  | stop => rfl
  | write s template args =>
    have hfilled : ∀ text, Template.fill? formats args template = some text →
        (l.call formats s template args).Returns (AddsIf (Admitted before s) ⟨s, text⟩) :=
      fun text h => ⟨_, call_of_fill? h l s, addsIf_write (hadmits s)⟩
    refine ⟨?_, hfilled, fun h => ?_⟩
    · rintro text rfl rfl
      exact hfilled text (Template.fill?_place formats text)
    · simp only [step, call, h]
      refine ⟨fun hadmitted => ?_, fun hnot => ?_⟩
      · rw [if_pos ((hadmits s).mpr hadmitted)]
      · rw [if_neg (mt (hadmits s).mp hnot)]
  | compile o q =>
    simp only [step, Adds]
    refine ⟨_, rfl, ?_⟩
    cases h : q.compile o with
    | error e =>
      rw [Query.report, h, compileLines_of_error h]
      exact ⟨fun _ => addsIf_write (hadmits .warning), fun h => absurd h Bool.false_ne_true⟩
    | ok s =>
      rw [Query.report, h, compileLines_of_ok h]
      refine ⟨fun h => absurd h.symm Bool.false_ne_true, fun _ => ?_⟩
      by_cases hasked : o.logQueries = true
      · rw [if_pos hasked]
        refine addsIf_write ?_
        rw [hadmits, and_iff_right hasked]
      · rw [if_neg hasked]
        exact ⟨fun hboth => absurd hboth.1 hasked, fun _ => rfl⟩

end Logger

/-- **What reaches the log of a session.** Between any two calls the logger is started exactly where
the last start or stop is a start, and then under the threshold in force; and the call that follows
adds the lines that it adds by itself, whatever else the session does. -/
theorem session_logged (formats : Template.Formats) (before : List LogCall) (c : LogCall)
    (after : List LogCall) :
    ((Logger.silent.run formats before).1.isStarted = true ↔ ∃ t since, SinceStart before t since) ∧
    (∀ t, (Logger.silent.run formats before).1 = .started t ↔ InForce before t) ∧
    (Logger.silent.run formats (before ++ c :: after)).2.length = (before ++ c :: after).length ∧
    ∃ added, (Logger.silent.run formats (before ++ c :: after)).2[before.length]? = some added ∧
      Adds formats before c added := by
  have hstate : ∀ t, (Logger.silent.run formats before).1 = .started t ↔ InForce before t :=
    Logger.run_eq_started_iff before
  refine ⟨?_, hstate, Logger.length_run .silent _, ?_⟩
  · rw [Logger.isStarted_iff]
    constructor
    · rintro ⟨t, ht⟩
      obtain ⟨first, since, hsince, _⟩ := (hstate t).mp ht
      exact ⟨first, since, hsince⟩
    · rintro ⟨t, since, hsince⟩
      exact ⟨_, (hstate _).mpr ⟨t, since, hsince, rfl⟩⟩
  · refine ⟨_, ?_, Logger.adds_step hstate c⟩
    have hlength : (Logger.silent.run formats before).2.length = before.length :=
      Logger.length_run .silent before
    rw [Logger.run_append, List.getElem?_append_right (Nat.le_of_eq hlength), hlength,
      Nat.sub_self]
    rfl

end GraphQuery

import GraphQuery.Proofs.Configuration
import GraphQuery.Proofs.Session

/-!
# Where reading a configuration stops

Settings are read in a fixed order up to the first bad one. What comes before it is as the JSON
value gives it, and all the rest as it is by default, whatever stands there. Nothing is bad in the
JSON form of a configuration.

* `Config.StopsBetween` divides the settings at the first bad one, and
  `Config.StopsBetween.exists_ofJson_eq` says what is read on either side.
* `Config.overlay_eq_of_place_eq`: no setting behind the first bad one matters.
* `Config.ofJson_toJson`: writing and reading a configuration gives it back.
* `configuration_overlay`: all of this for every JSON value, the lines in the log, and that
  configurations are read as they were written.
-/

namespace GraphQuery

open Value

/-! ### All settings -/

theorem Setting.mem_all (s : Setting) : s ∈ all := by
  cases s <;> decide

/-- A configuration has no more to it than its settings. -/
theorem Config.eq_of_get {c c' : Config} (h : ∀ s : Setting, s.get c = s.get c') : c = c' := by
  obtain ⟨⟨pretty, indentWidth, logQueries, depthLimit⟩, ⟨level, file, pattern⟩⟩ := c
  obtain ⟨⟨pretty', indentWidth', logQueries', depthLimit'⟩, ⟨level', file', pattern'⟩⟩ := c'
  cases h .pretty
  cases h .indentWidth
  cases h .logQueries
  cases h .depthLimit
  cases h .level
  cases h .file
  cases h .pattern
  rfl

namespace Config

/-! ### The first bad setting -/

/-- The settings, divided at the first bad one: those before it, and the others, of which it is the
first. Where none is bad there are no others. -/
structure StopsBetween (j : Value) (before after : List Setting) : Prop where
  eq_append : Setting.all = before ++ after
  not_bad : ∀ s ∈ before, ¬s.Bad j
  bad : ∀ s ∈ after.head?, s.Bad j

theorem exists_first_bad (j : Value) (settings : List Setting) :
    ∃ before after, settings = before ++ after ∧ (∀ s ∈ before, ¬s.Bad j) ∧
      ∀ s ∈ after.head?, s.Bad j := by
  induction settings with
  | nil => exact ⟨[], [], rfl, nofun, nofun⟩
  | cons s settings ih =>
    by_cases hs : s.Bad j
    · exact ⟨[], s :: settings, rfl, nofun, by simpa using hs⟩
    · obtain ⟨before, after, rfl, hbefore, hafter⟩ := ih
      exact ⟨s :: before, after, rfl, List.forall_mem_cons.mpr ⟨hs, hbefore⟩, hafter⟩

theorem exists_stopsBetween (j : Value) : ∃ before after, StopsBetween j before after := by
  obtain ⟨before, after, hall, hbefore, hafter⟩ := exists_first_bad j Setting.all
  exact ⟨before, after, hall, hbefore, hafter⟩

section Overlay

variable {j j' : Value} {before after : List Setting}

/-- Nothing is read from the first bad setting on. -/
theorem overlay_of_bad (hafter : ∀ s ∈ after.head?, s.Bad j) (c : Config) :
    overlay j c after = ⟨c, after.isEmpty⟩ := by
  cases after with
  | nil => rfl
  | cons s rest =>
    have hread : s.read? j c = none := Setting.read?_eq_none_iff.mpr (hafter s rfl)
    rw [overlay, hread]
    rfl

/-- Settings behind a bad one do not matter. -/
theorem overlay_eq_of_place_eq (hafter : ∀ s ∈ after.head?, s.Bad j)
    (hplace : ∀ s ∈ before ++ after.head?.toList, s.place j' = s.place j) (c : Config) :
    overlay j' c (before ++ after) = overlay j c (before ++ after) := by
  induction before generalizing c with
  | nil =>
    have hafter' : ∀ s ∈ after.head?, s.Bad j' := by
      intro s hs
      rw [Setting.Bad, hplace s (by simpa using hs)]
      exact hafter s hs
    rw [List.nil_append, overlay_of_bad hafter, overlay_of_bad hafter']
  | cons s before ih =>
    obtain ⟨hs, hplace⟩ := List.forall_mem_cons.mp hplace
    have hread : s.read? j' c = s.read? j c := by
      rw [Setting.read?_eq, Setting.read?_eq, hs]
    rw [List.cons_append, overlay, overlay, hread]
    cases s.read? j c with
    | none => rfl
    | some c' => exact ih hplace c'

end Overlay

namespace StopsBetween

variable {j : Value} {before after : List Setting}

theorem nodup (h : StopsBetween j before after) : (before ++ after).Nodup := by
  rw [← h.eq_append]
  decide

/-- **What is read of a configuration**: what is given before the first bad setting, and the default
from there on. -/
theorem exists_ofJson_eq (h : StopsBetween j before after) :
    ∃ c, ofJson j = ⟨c, after.isEmpty⟩ ∧ (∀ s ∈ before, s.given? j = some (s.get c)) ∧
      ∀ s ∈ after, s.get c = s.get standard := by
  obtain ⟨hbefore, -, hdisjoint⟩ := List.nodup_append.mp h.nodup
  obtain ⟨c, hc, hgiven, hkept⟩ :=
    exists_overlay_append h.not_bad hbefore (fun _ _ => rfl) after
  refine ⟨c, ?_, hgiven, fun s hs => hkept s fun hmem => hdisjoint s hmem s hs rfl⟩
  rw [ofJson, h.eq_append, hc, overlay_of_bad h.bad]

theorem exists_bad_iff (h : StopsBetween j before after) :
    (∃ s : Setting, s.Bad j) ↔ after.isEmpty = false := by
  cases after with
  | nil =>
    have hall := h.eq_append
    rw [List.append_nil] at hall
    simpa using fun s => h.not_bad s (hall ▸ s.mem_all)
  | cons s rest => exact iff_of_true ⟨s, h.bad s rfl⟩ rfl

end StopsBetween

section Whole

variable {j j' : Value}

/-- Not all of a configuration is read exactly if it has a bad setting. -/
theorem complete_ofJson_iff : (ofJson j).complete = false ↔ ∃ s : Setting, s.Bad j := by
  obtain ⟨before, after, h⟩ := exists_stopsBetween j
  obtain ⟨c, hread, -⟩ := h.exists_ofJson_eq
  rw [hread, h.exists_bad_iff]

/-- Where something is given for every setting, all of it is read. -/
theorem ofJson_of_given? {c : Config} (h : ∀ s : Setting, s.given? j = some (s.get c)) :
    ofJson j = ⟨c, true⟩ := by
  have hgood : ∀ s : Setting, ¬s.Bad j := fun s => by
    rw [Setting.bad_iff, h]
    exact Option.some_ne_none _
  obtain ⟨c', hread, hgiven, -⟩ :=
    StopsBetween.exists_ofJson_eq ⟨(List.append_nil _).symm, fun s _ => hgood s, nofun⟩
  have hgets : ∀ s : Setting, s.get c' = s.get c := fun s =>
    Option.some.inj ((hgiven s s.mem_all).symm.trans (h s))
  rw [hread, eq_of_get hgets]
  rfl

end Whole

/-! ### Configurations that were written -/

theorem given?_toJson (c : Config) (s : Setting) : s.given? c.toJson = some (s.get c) := by
  have hnumber : ∀ n : Int32, ((Value.signed n.toInt64).int32?).map SettingValue.number =
      some (.number n) := fun n => by
    rw [int32?, Int32.toInt32_toInt64, Option.map_some]
  cases s with
  | indentWidth => exact hnumber c.compiler.indentWidth
  | depthLimit => exact hnumber c.compiler.depthLimit
  | _ => rfl

theorem ofJson_toJson (c : Config) : ofJson c.toJson = ⟨c, true⟩ :=
  ofJson_of_given? (given?_toJson c)

end Config

/-! ### The log, and the whole -/

namespace Logger

theorem configLines_eq (l : Logger) (r : ConfigReading) :
    l.configLines r =
      if r.complete then []
      else l.write
        ⟨.error, utf8 "Failed to parse compiler configuration from JSON: " ++ jsonErrorText⟩ := by
  simp [configLines, log, partialForm]

end Logger

/-- **Reading a configuration stops at the first bad setting.** The settings before it are as the
JSON value gives them, or the default where it gives none; it and the others are the default, and no
change to the others makes a difference. There is an error line in the log exactly if there is a bad
setting and errors are admitted. What was written is read as it was. -/
theorem configuration_overlay :
    (∀ j : Value,
      (∃ before after, Config.StopsBetween j before after) ∧
      (∀ before after, Config.StopsBetween j before after →
        (∀ s ∈ before, s.given? j = some (s.get (Config.ofJson j).config)) ∧
        (∀ s ∈ after, s.get (Config.ofJson j).config = s.get Config.standard) ∧
        ∀ j', (∀ s ∈ before ++ after.head?.toList, s.place j' = s.place j) →
          Config.ofJson j' = Config.ofJson j) ∧
      ∀ l : Logger, AddsIf ((∃ s : Setting, s.Bad j) ∧ l.admits .error = true)
        ⟨.error, utf8 "Failed to parse compiler configuration from JSON: " ++ jsonErrorText⟩
        (l.configLines (Config.ofJson j))) ∧
    ∀ c : Config, Config.ofJson c.toJson = ⟨c, true⟩ := by
  refine ⟨fun j => ⟨Config.exists_stopsBetween j, fun before after h => ?_, fun l => ?_⟩,
    Config.ofJson_toJson⟩
  · obtain ⟨c, hread, hgiven, hkept⟩ := h.exists_ofJson_eq
    rw [hread]
    refine ⟨hgiven, hkept, fun j' hplace => ?_⟩
    rw [← hread, Config.ofJson, Config.ofJson, h.eq_append]
    exact Config.overlay_eq_of_place_eq h.bad hplace _
  · obtain ⟨before, after, h⟩ := Config.exists_stopsBetween j
    obtain ⟨c, hread, -⟩ := h.exists_ofJson_eq
    rw [Logger.configLines_eq, hread, h.exists_bad_iff]
    cases after with
    | nil => simp [AddsIf]
    | cons s rest => exact Logger.addsIf_write (by simp)

/-- A configuration with a word for the indentation. -/
def wordyIndent (logging : Value) : Value :=
  .object [(utf8 "compiler",
      .object [(utf8 "indent_width", .string (utf8 "wide")), (utf8 "pretty", .bool true)]),
    (utf8 "logging", logging)]

/-- Behind a word for the indentation, a level for the log is as good as a log that is no object. -/
theorem configuration_overlay_wordyIndent :
    let debug : Value := .object [(utf8 "level", .string (utf8 "debug"))]
    Config.ofJson (wordyIndent .null) = Config.ofJson (wordyIndent debug) ∧
      Setting.pretty.get (Config.ofJson (wordyIndent debug)).config = .flag true ∧
      Setting.level.get (Config.ofJson (wordyIndent debug)).config = .text (utf8 "info") := by
  intro debug
  have hpretty : ¬Setting.pretty.Bad (wordyIndent debug) := by
    rw [Setting.bad_iff]
    exact Option.some_ne_none (SettingValue.flag true)
  have hindent : Setting.indentWidth.Bad (wordyIndent debug) := Setting.bad_iff.mpr rfl
  have hstops : Config.StopsBetween (wordyIndent debug) [.pretty]
      [.indentWidth, .logQueries, .depthLimit, .level, .file, .pattern] :=
    ⟨rfl, by simpa using hpretty, by simpa using hindent⟩
  obtain ⟨hgiven, hkept, hsame⟩ := (configuration_overlay.1 (wordyIndent debug)).2.1 _ _ hstops
  refine ⟨hsame _ ?_, (Option.some.inj (hgiven .pretty (by decide))).symm, hkept .level (by decide)⟩
  simp only [List.head?_cons, Option.toList_some, List.cons_append, List.nil_append,
    List.forall_mem_cons, List.not_mem_nil, false_implies, implies_true, and_true]
  exact ⟨rfl, rfl⟩

end GraphQuery

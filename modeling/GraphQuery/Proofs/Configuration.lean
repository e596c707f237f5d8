import GraphQuery.Config
import GraphQuery.Proofs.Descriptor.Grammar

/-!
# What a configuration sets

Settings are laid over the defaults one after the other, up to the first that cannot be read. Each
is read from its own place in the JSON value and leaves the others alone.

* `Value.int32?_of_isWhole`: a whole number is cut to its lower 32 bits.
* `Setting.place` is where a setting is read from, `Setting.get` looks it up in a configuration, and
  `Setting.given?` is what it is read as.
* `Setting.Bad`: its section is no object, or its member has no type for it.
  `Setting.read?_eq_none_iff`, `Setting.given?_of_read?` and `Setting.get_of_read?_of_ne` say what
  reading one setting does.
* `Config.exists_overlay_append` says what reading some of them does, and
  `Config.get_overlay_of_notMem` what it does to the others.
* `Config.depthLimit_ofJson`: the depth limit of a configuration that sets one.
-/

namespace GraphQuery

namespace Value

/-! ### Whole numbers of 32 bits -/

/-- Numbers of every kind, and truth values, are taken for a number of 32 bits. -/
def IsNumeric : Value → Prop
  | .bool _ | .signed _ | .unsigned _ | .double _ => True
  | _ => False

theorem isSome_int32?_iff {v : Value} : v.int32?.isSome = true ↔ v.IsNumeric := by
  cases v with
  | double x =>
    refine iff_of_true ?_ trivial
    rw [int32?]
    split
    · rfl
    · split <;> rfl
  | _ => simp [int32?, IsNumeric]

theorem IsWhole.isNumeric {v : Value} {m : Int} (h : v.IsWhole m) : v.IsNumeric := by
  cases v <;> trivial

/-- **A whole number is cut to its lower 32 bits**, however many it has. -/
theorem int32?_of_isWhole {v : Value} {m : Int} (h : v.IsWhole m) :
    v.int32? = some (Int32.ofInt m) := by
  cases v with
  | signed n =>
    cases h
    rw [int32?, Int32.ofInt_int64ToInt]
  | unsigned n =>
    cases h
    have hbits : n.toUInt32.toInt32.toInt = (n.toNat : Int).bmod Int32.size := by
      change n.toUInt32.toBitVec.toInt = _
      rw [BitVec.toInt_eq_toNat_bmod, UInt32.toNat_toBitVec, UInt64.toNat_toUInt32,
        Int.natCast_emod]
      exact Int.emod_bmod _ _
    rw [int32?, ← Int32.toInt_inj.mp (hbits.trans Int32.toInt_ofInt.symm)]
  | _ => exact h.elim

/-! ### Configurations with a depth limit -/

/-- Configurations whose compiler section sets a depth limit and has nothing of a wrong type. -/
def SetsDepthLimit (j : Value) (m : Int) : Prop :=
  j.Has "compiler" fun compiler =>
    compiler.Has "max_traversal_depth" (IsWhole · m) ∧ compiler.MayHave "pretty" IsFlag ∧
      compiler.MayHave "indent_width" IsNumeric ∧ compiler.MayHave "log_queries" IsFlag

end Value

open Value

/-! ### Settings -/

/-- The value of a setting. -/
inductive SettingValue where
  | flag (b : Bool)
  | number (n : Int32)
  | text (s : Text)
  deriving DecidableEq, Repr

namespace Setting

/-- The value that a configuration has for a setting. -/
def get (c : Config) : Setting → SettingValue
  | .pretty => .flag c.compiler.pretty
  | .indentWidth => .number c.compiler.indentWidth
  | .logQueries => .flag c.compiler.logQueries
  | .depthLimit => .number c.compiler.depthLimit
  | .level => .text c.logging.level
  | .file => .text c.logging.file
  | .pattern => .text c.logging.pattern

/-- What a value is taken for in the place of a setting, if it has a type for that. -/
def valueOf? (v : Value) : Setting → Option SettingValue
  | .pretty | .logQueries => v.flag?.map .flag
  | .indentWidth | .depthLimit => v.int32?.map .number
  | .level | .file | .pattern => v.text?.map .text

/-- A setting is stored as what its value is taken for, and stores nothing else. -/
theorem get_of_store? {c c' : Config} {v : Value} {s : Setting} (h : s.store? c v = some c') :
    s.valueOf? v = some (s.get c') ∧ ∀ t ≠ s, t.get c' = t.get c := by
  cases s
  all_goals
    obtain ⟨x, hx, rfl⟩ := Option.map_eq_some_iff.mp h
    refine ⟨Option.map_eq_some_iff.mpr ⟨x, hx, rfl⟩, fun t ht => ?_⟩
    cases t <;> first | rfl | exact absurd rfl ht

/-- The values that have a type for a setting. -/
def Takes : Setting → Value → Prop
  | .pretty | .logQueries => IsFlag
  | .indentWidth | .depthLimit => IsNumeric
  | .level | .file | .pattern => IsText

/-- What has a type for a setting is taken for a value of it. -/
theorem isSome_valueOf?_iff {v : Value} {s : Setting} :
    (s.valueOf? v).isSome = true ↔ s.Takes v := by
  have hflag : v.flag?.isSome = true ↔ v.IsFlag := by
    cases v <;> simp [flag?, isFlag_iff]
  have htext : v.text?.isSome = true ↔ v.IsText := by
    cases v <;> simp [text?, IsText]
  have hnumber := isSome_int32?_iff (v := v)
  cases s <;> simpa only [valueOf?, Option.isSome_map, Takes]

/-! ### Reading a setting -/

/-- What stands in the place of a setting. -/
inductive Place where
  /-- The section is missing, or the member is. -/
  | empty
  | holds (v : Value)
  /-- The section is no object. -/
  | broken
  deriving Repr

/-- Looks at the place of a setting. -/
def place (j : Value) (s : Setting) : Place :=
  match j.get? s.sectionKey with
  | none => .empty
  | some members =>
    if members.isObject then
      match members.get? s.key with
      | none => .empty
      | some v => .holds v
    else .broken

/-- Of a configuration, a setting is read from its place alone. -/
theorem read?_eq (j : Value) (c : Config) (s : Setting) :
    s.read? j c =
      match s.place j with
      | .empty => some c
      | .holds v => s.store? c v
      | .broken => none := by
  rw [read?, place]
  cases j.get? s.sectionKey with
  | none => rfl
  | some members =>
    by_cases hobject : members.isObject = true
    · simp only [hobject, if_true]
      cases members.get? s.key <;> rfl
    · simp only [hobject]
      rfl

/-- Reading a setting leaves the others alone. -/
theorem get_of_read?_of_ne {j : Value} {c c' : Config} {s t : Setting}
    (h : s.read? j c = some c') (ht : t ≠ s) : t.get c' = t.get c := by
  rw [read?_eq] at h
  cases hplace : s.place j with
  | empty =>
    rw [hplace] at h
    cases h
    rfl
  | holds v =>
    rw [hplace] at h
    exact (get_of_store? h).2 t ht
  | broken =>
    rw [hplace] at h
    cases h

/-- A setting that cannot be read. -/
def Bad (j : Value) (s : Setting) : Prop :=
  match s.place j with
  | .empty => False
  | .holds v => ¬s.Takes v
  | .broken => True

/-- A setting is not bad where its section is an object and a member in its place has a type for
it. -/
theorem not_bad_of_takes {j members : Value} {s : Setting}
    (hsection : j.get? s.sectionKey = some members) (hobject : members.isObject = true)
    (htakes : ∀ v, members.get? s.key = some v → s.Takes v) : ¬s.Bad j := by
  rw [Bad, place, hsection]
  simp only [hobject, if_true]
  cases hv : members.get? s.key with
  | none => exact id
  | some v => exact not_not_intro (htakes v hv)

/-- What is given for a setting that can be read: its member, or the default. -/
def given? (j : Value) (s : Setting) : Option SettingValue :=
  match s.place j with
  | .empty => some (s.get Config.standard)
  | .holds v => s.valueOf? v
  | .broken => none

theorem bad_iff {j : Value} {s : Setting} : s.Bad j ↔ s.given? j = none := by
  rw [Bad, given?]
  cases s.place j with
  | empty => simp
  | holds v =>
    dsimp only
    rw [← isSome_valueOf?_iff, Option.not_isSome_iff_eq_none]
  | broken => simp

/-- A bad setting cannot be read, whatever was read before it. -/
theorem read?_eq_none_iff {j : Value} {c : Config} {s : Setting} :
    s.read? j c = none ↔ s.Bad j := by
  have hstore : ∀ v, s.store? c v = none ↔ s.valueOf? v = none := by
    intro v
    cases s <;> simp only [store?, put?, Scalar.ofJson, valueOf?, Option.map_eq_none_iff]
  rw [read?_eq, bad_iff, given?]
  cases s.place j with
  | empty => simp
  | holds v => exact hstore v
  | broken => simp

/-- A setting that is read gets what is given for it. -/
theorem given?_of_read? {j : Value} {c c' : Config} {s : Setting} (h : s.read? j c = some c')
    (hdefault : s.get c = s.get Config.standard) : s.given? j = some (s.get c') := by
  rw [read?_eq] at h
  rw [given?]
  cases hplace : s.place j with
  | empty =>
    rw [hplace] at h
    cases h
    exact congrArg some hdefault.symm
  | holds v =>
    rw [hplace] at h
    exact (get_of_store? h).1
  | broken =>
    rw [hplace] at h
    cases h

end Setting

/-! ### Settings in order -/

namespace Config

/-- What is not among the settings keeps its value. -/
theorem get_overlay_of_notMem {j : Value} {settings : List Setting} {t : Setting}
    (h : t ∉ settings) (c : Config) : t.get (overlay j c settings).config = t.get c := by
  induction settings generalizing c with
  | nil => rfl
  | cons s settings ih =>
    obtain ⟨ht, hsettings⟩ := List.ne_and_not_mem_of_not_mem_cons h
    rw [overlay]
    split
    · rename_i c' hc'
      rw [ih hsettings, Setting.get_of_read?_of_ne hc' ht]
    · rfl

/-- Settings that are not bad are read one after the other. -/
theorem exists_overlay_append {j : Value} {before : List Setting}
    (hbefore : ∀ s ∈ before, ¬s.Bad j) (hnodup : before.Nodup) {c : Config}
    (hdefault : ∀ s ∈ before, s.get c = s.get standard) (more : List Setting) :
    ∃ c', overlay j c (before ++ more) = overlay j c' more ∧
      (∀ s ∈ before, s.given? j = some (s.get c')) ∧ ∀ s ∉ before, s.get c' = s.get c := by
  induction before generalizing c with
  | nil => exact ⟨c, rfl, nofun, fun _ _ => rfl⟩
  | cons s before ih =>
    obtain ⟨hs, hbefore⟩ := List.forall_mem_cons.mp hbefore
    obtain ⟨hdefault, hdefaults⟩ := List.forall_mem_cons.mp hdefault
    obtain ⟨hnotMem, hnodup⟩ := List.nodup_cons.mp hnodup
    obtain ⟨c₁, hread⟩ := Option.ne_none_iff_exists'.mp (mt Setting.read?_eq_none_iff.mp hs)
    have hothers : ∀ t ≠ s, t.get c₁ = t.get c := fun t =>
      Setting.get_of_read?_of_ne hread
    have hrest : ∀ t ∈ before, t.get c₁ = t.get standard := fun t ht => by
      rw [hothers t (ne_of_mem_of_not_mem ht hnotMem), hdefaults t ht]
    obtain ⟨c', hoverlay, hgiven, hkept⟩ := ih hbefore hnodup hrest
    refine ⟨c', ?_, List.forall_mem_cons.mpr ⟨?_, hgiven⟩, fun t ht => ?_⟩
    · rw [List.cons_append, overlay, hread]
      exact hoverlay
    · rw [hkept s hnotMem]
      exact Setting.given?_of_read? hread hdefault
    · obtain ⟨hne, hnotMem⟩ := List.ne_and_not_mem_of_not_mem_cons ht
      rw [hkept t hnotMem, hothers t hne]

/-- **The depth limit of a configuration that sets one** is the lower 32 bits of what is set. -/
theorem depthLimit_ofJson {j : Value} {m : Int} (h : j.SetsDepthLimit m) :
    (ofJson j).config.compiler.depthLimit = Int32.ofInt m := by
  obtain ⟨compiler, hcompiler, ⟨v, hv, hwhole⟩, hpretty, hindent, hlog⟩ := h
  have hobject : compiler.isObject = true := Value.isObject_of_get? hv
  have hbefore : ∀ s ∈ [Setting.pretty, .indentWidth, .logQueries, .depthLimit], ¬s.Bad j := by
    simp only [List.forall_mem_cons, List.not_mem_nil, false_implies, implies_true, and_true]
    refine ⟨?_, ?_, ?_, ?_⟩
    · exact Setting.not_bad_of_takes hcompiler hobject hpretty
    · exact Setting.not_bad_of_takes hcompiler hobject hindent
    · exact Setting.not_bad_of_takes hcompiler hobject hlog
    · refine Setting.not_bad_of_takes hcompiler hobject fun w hw => ?_
      cases hv.symm.trans hw
      exact hwhole.isNumeric
  obtain ⟨c, hc, hgiven, -⟩ :=
    exists_overlay_append hbefore (by decide) (fun _ _ => rfl) [.level, .file, .pattern]
  have hlimit : Setting.depthLimit.given? j = some (.number (Int32.ofInt m)) := by
    simp only [Setting.given?, Setting.place, Setting.sectionKey, Setting.key, hcompiler, hobject,
      hv, if_true, Setting.valueOf?, Value.int32?_of_isWhole hwhole, Option.map_some]
  have hread : Setting.depthLimit.get c = .number (Int32.ofInt m) :=
    Option.some.inj ((hgiven .depthLimit (by decide)).symm.trans hlimit)
  have hafter : Setting.depthLimit ∉ [Setting.level, .file, .pattern] := by decide
  have hall : ofJson j = overlay j c [.level, .file, .pattern] := hc
  rw [hall]
  exact SettingValue.number.inj ((get_overlay_of_notMem hafter c).trans hread)

end Config

end GraphQuery

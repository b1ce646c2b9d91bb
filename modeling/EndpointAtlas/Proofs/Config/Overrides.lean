import EndpointAtlas.Proofs.Config.Fields

set_option autoImplicit false

namespace EndpointAtlas

namespace Config

variable {config changed : Config} {changes : List (String × Option Setting)} {name : String}

def given? (changes : List (String × Option Setting)) (name : String) : Option Setting :=
  ((changes.filter fun change => change.1 = name).filterMap Prod.snd).getLast?

theorem given?_cons (change : String × Option Setting) :
    given? (change :: changes) name =
      (given? changes name).or (if change.1 = name then change.2 else none) := by
  by_cases hn : change.1 = name
  · cases hv : change.2 <;> simp [given?, hn, hv, List.getLast?_cons, ← Option.or_some]
  · simp [given?, hn]

theorem get?_replaced (settings : Entries Setting) (changes : List (String × Option Setting))
    (name : String) :
    (replaced settings changes).get? name = (given? changes name).or (settings.get? name) := by
  -- Each change is made to what the ones before it have left.
  induction changes generalizing settings with
  | nil => rfl
  | cons change rest ih =>
    obtain ⟨key, value⟩ := change
    rw [given?_cons, Option.or_assoc]
    cases value with
    | none =>
      rw [show replaced settings ((key, none) :: rest) = replaced settings rest from rfl, ih]
      simp
    | some value =>
      rw [show replaced settings ((key, some value) :: rest) =
        replaced (Entries.put key value settings) rest from rfl, ih, Entries.get?_put]
      by_cases hn : key = name <;> simp [hn]

theorem Valid.gives (h : Valid config) {fields : Entries Setting} {field : Field}
    (shown : fields.get? field.name = field.value config) : field.Gives fields config := by
  rw [Field.Gives, shown]
  cases hv : field.value config with
  | none => exact .inl ⟨rfl, by rw [Field.value_eq_none hv]; rfl⟩
  | some value => exact .inr ⟨value, rfl, rfl, h field value hv⟩

theorem ofFields_settings (h : Valid config) : ofFields config.settings = .ok config :=
  ofFields_eq_ok_iff.2 fun field => h.gives (get?_settings config field)

/-- What a changed configuration is: every field has a value that it takes, namely the one that is
given or else the one from before. -/
theorem override_eq_ok_iff : override config.settings changes = .ok changed ↔
    Valid changed ∧ ∀ field : Field, field.value changed =
      (given? changes field.name).or (field.value config) := by
  have given : ∀ field : Field, (replaced config.settings changes).get? field.name =
      (given? changes field.name).or (field.value config) :=
        fun field => by rw [get?_replaced, get?_settings]
  rw [override]
  constructor
  · intro ho
    refine ⟨valid_of_ofFields ho, fun field => ?_⟩
    rcases ofFields_eq_ok_iff.1 ho field with ⟨missing, standard⟩ | ⟨value, set, shown, -⟩
    · rw [given] at missing
      rw [missing, standard, Field.value_eq_none (Option.or_eq_none_iff.1 missing).2]
      rfl
    · rw [shown, ← set, given]
  · rintro ⟨valid, shown⟩
    exact ofFields_eq_ok_iff.2 fun field => valid.gives (by rw [given, shown])

theorem exists_override_iff (h : Valid config) :
    (∃ changed, override config.settings changes = .ok changed) ↔
    ∀ (field : Field) value, given? changes field.name = some value → field.Takes value := by
  rw [show (∃ changed, override config.settings changes = .ok changed) ↔ _ from exists_ofFields_iff]
  refine forall_congr' fun field => ?_
  rw [get?_replaced, get?_settings]
  cases given? changes field.name with
  | none => simpa using h field
  | some value => simp

/-- Configurations are closed under being checked again and under changes. -/
theorem override_closed {raw : Option Setting} (accepted : ofSetting raw = .ok config) :
    ofSetting (some (.table config.settings)) = .ok config ∧
    override config.settings [] = .ok config ∧ ∀ changes,
      ((∃ changed, override config.settings changes = .ok changed) ↔
        ∀ (field : Field) value, given? changes field.name = some value → field.Takes value) ∧
      ∀ changed, override config.settings changes = .ok changed →
        (∀ field : Field, changed.settings.get? field.name =
          (given? changes field.name).or (config.settings.get? field.name)) ∧
        (∀ name, (∀ field : Field, field.name ≠ name) → changed.settings.get? name = none) ∧
        override changed.settings changes = .ok changed := by
  obtain ⟨fields, given⟩ := ofSetting_eq_ok accepted
  have valid := valid_of_ofFields given
  refine ⟨ofFields_settings valid, ofFields_settings valid, fun changes =>
    ⟨exists_override_iff valid, fun changed h => ?_⟩⟩
  obtain ⟨still, shown⟩ := override_eq_ok_iff.1 h
  refine ⟨fun field => ?_, fun name unknown => get?_settings_unknown changed unknown,
    override_eq_ok_iff.2 ⟨still, fun field => ?_⟩⟩
  · rw [get?_settings, get?_settings, shown]
  · rw [shown, ← Option.or_assoc, Option.or_self]

def titled : Config := { default with title := some "Base", host := "http://localhost:8080" }

def titles : Setting :=
  .table [("title", .text "Base"), ("nope", .flag true), ("host", .text "http://localhost:8080")]

def fewer : List (String × Option Setting) :=
  [("title", none), ("maxWorkers", some (.number (.ofInt 2))), ("nope", some .null)]

theorem override_closed_titled :
    ofSetting (some titles) = .ok titled ∧
      override titled.settings fewer = .ok { titled with maxWorkers := 2 } ∧
      override (settings { titled with maxWorkers := 2 }) fewer =
        .ok { titled with maxWorkers := 2 } := by
  have accepted : ofSetting (some titles) = .ok titled := rfl
  have once : override titled.settings fewer = .ok { titled with maxWorkers := 2 } := rfl
  exact ⟨accepted, once, (((override_closed accepted).2.2 fewer).2 _ once).2.2⟩

end Config

end EndpointAtlas

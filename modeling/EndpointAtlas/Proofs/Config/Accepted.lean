import EndpointAtlas.Config.Check

set_option autoImplicit false

namespace EndpointAtlas

namespace Checked

variable {α β : Type}

theorem both_eq_ok {first : Checked α} {second : Checked β} {a : α} {b : β} :
    first.both second = .ok (a, b) ↔ first = .ok a ∧ second = .ok b := by
  cases first <;> cases second <;> simp [both]

theorem flawless_eq_ok {place : List String} {value a : α} {faults : List SettingFault} :
    flawless place value faults = .ok a ↔ faults = [] ∧ value = a := by
  cases faults <;> simp [flawless]

end Checked

namespace Config

theorem checkText_eq_ok {test : String → List SettingFault} {place : List String} {value : Setting}
    {s : String} : checkText test place value = .ok s ↔ value = .text s ∧ test s = [] := by
  cases value with
  | text t =>
    rw [checkText, Checked.flawless_eq_ok, Setting.text.injEq]
    exact ⟨fun ⟨ht, h⟩ => ⟨h, h ▸ ht⟩, fun ⟨h, ht⟩ => ⟨h ▸ ht, h⟩⟩
  | _ => simp [checkText, Checked.wrongKind]

theorem checkField_eq_ok {α : Type} {fields : Entries Setting} {name : String} {default a : α}
    {check : List String → Setting → Checked α} (h : checkField fields name default check = .ok a) :
    a = default ∨ ∃ value, fields.get? name = some value ∧ check [name] value = .ok a := by
  unfold checkField at h
  cases hv : fields.get? name with
  | none =>
    rw [hv] at h
    exact .inl (Except.ok.inj h).symm
  | some value =>
    rw [hv] at h
    exact .inr ⟨value, rfl, h⟩

theorem ofFields_eq_ok {fields : Entries Setting} {config : Config} : ofFields fields = .ok config ↔
    checkField fields "ignoredDirs" default.ignoredDirs checkNames = .ok config.ignoredDirs ∧
    checkField fields "host" default.host (checkText addressFaults) = .ok config.host ∧
    checkField fields "title" default.title (fun place value =>
      (checkText emptiness place value).map some) = .ok config.title ∧
    checkField fields "version" default.version (checkText emptiness) = .ok config.version ∧
    checkField fields "description" default.description (checkText fun _ => []) =
      .ok config.description ∧
    checkField fields "cacheDirName" default.cacheDirName (checkText nameFaults) =
      .ok config.cacheDirName ∧
    checkField fields "maxWorkers" default.maxWorkers (checkCount 1 (some workersLimit)) =
      .ok config.maxWorkers ∧
    checkField fields "maxFileSize" default.maxFileSize (checkCount 0 none) =
      .ok config.maxFileSize := by
  constructor
  · intro h
    obtain ⟨⟨ignored, host, title, version, description, cache, workers, size⟩, hb, hc⟩ :
        ∃ all, _ = Except.ok all ∧ _ = config := by
      simp only [ofFields, Except.map] at h
      split at h
      · cases h
      · rename_i all hall
        exact ⟨all, hall, Except.ok.inj h⟩
    simp only [Checked.both_eq_ok] at hb
    subst hc
    exact hb
  · rintro ⟨ignored, host, title, version, description, cache, workers, size⟩
    simp only [ofFields, ignored, host, title, version, description, cache, workers, size]
    rfl

theorem ofSetting_eq_ok {setting : Option Setting} {config : Config}
    (h : ofSetting setting = .ok config) : ∃ fields, ofFields fields = .ok config := by
  match setting with
  | none | some .null => exact ⟨[], h⟩
  | some (.table fields) => exact ⟨fields, h⟩
  | some (.flag _) | some (.number _) | some (.greatInteger _) | some (.moment _) | some (.text _)
  | some (.list _) => cases h

theorem nameFaults_eq_nil {s : String} :
    nameFaults s = [] ↔ s ≠ "" ∧ '/' ∉ s.toList ∧ '\\' ∉ s.toList := by
  by_cases hs : s = ""
  · simp [nameFaults, emptiness, hs]
  · simp [nameFaults, emptiness, hs]

theorem nameFaults_cacheDirName {setting : Option Setting} {config : Config}
    (h : ofSetting setting = .ok config) : nameFaults config.cacheDirName = [] := by
  obtain ⟨fields, hf⟩ := ofSetting_eq_ok h
  obtain ⟨-, -, -, -, -, hc, -, -⟩ := ofFields_eq_ok.1 hf
  rcases checkField_eq_ok hc with hd | ⟨value, -, hv⟩
  · rw [hd]
    decide
  · exact (checkText_eq_ok.1 hv).2

end Config

end EndpointAtlas

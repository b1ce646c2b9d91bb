import EndpointAtlas.Proofs.Config.Accepted
import Mathlib.Data.List.Basic
import Mathlib.Data.Rat.Cast.Order

set_option autoImplicit false

namespace EndpointAtlas

theorem Checked.map_eq_ok {α β : Type} {f : α → β} {checked : Checked α} {b : β} :
    checked.map f = .ok b ↔ ∃ a, checked = .ok a ∧ f a = b := by
  cases checked <;> simp [Except.map]

namespace Config

def IsText (kind : String → Prop) (value : Setting) : Prop := ∃ s, value = .text s ∧ kind s

def AreNames (value : Setting) : Prop :=
  ∃ names : List String, value = .list (names.map .text) ∧ "" ∉ names

/-- A whole number that is at least one and at most another, if there is such a bound. -/
def IsCount (least : Nat) (greatest : Option Nat) (value : Setting) : Prop :=
  ∃ n : Nat, value = .number (.ofInt n) ∧ least ≤ n ∧ ∀ bound ∈ greatest, n ≤ bound

inductive Field where
  | ignoredDirs | host | title | version | description | cacheDirName | maxWorkers | maxFileSize
  deriving DecidableEq, Repr

namespace Field

def name : Field → String
  | ignoredDirs => "ignoredDirs"
  | host => "host"
  | title => "title"
  | version => "version"
  | description => "description"
  | cacheDirName => "cacheDirName"
  | maxWorkers => "maxWorkers"
  | maxFileSize => "maxFileSize"

/-- The values that a field takes. -/
def Takes : Field → Setting → Prop
  | ignoredDirs => AreNames
  | host => IsText fun s => Url.isComplete s.toList = true
  | title => IsText (· ≠ "")
  | version => IsText (· ≠ "")
  | description => IsText fun _ => True
  | cacheDirName => IsText fun s => s ≠ "" ∧ '/' ∉ s.toList ∧ '\\' ∉ s.toList
  | maxWorkers => IsCount 1 (some 5)
  | maxFileSize => IsCount 0 none

def value (config : Config) : Field → Option Setting
  | ignoredDirs => some (.list (config.ignoredDirs.map .text))
  | host => some (.text config.host)
  | title => config.title.map .text
  | version => some (.text config.version)
  | description => some (.text config.description)
  | cacheDirName => some (.text config.cacheDirName)
  | maxWorkers => some (.number (.ofInt config.maxWorkers))
  | maxFileSize => some (.number (.ofInt config.maxFileSize))

theorem value_eq_none {config : Config} {field : Field} (h : field.value config = none) :
    field = title := by
  cases field <;> simp_all [value]

end Field

theorem settings_eq (config : Config) : config.settings =
    [("ignoredDirs", .list (config.ignoredDirs.map .text)), ("host", .text config.host)]
      ++ (config.title.toList.map fun title => ("title", .text title))
      ++ [("version", .text config.version), ("description", .text config.description),
        ("cacheDirName", .text config.cacheDirName),
        ("maxWorkers", .number (.ofInt config.maxWorkers)),
        ("maxFileSize", .number (.ofInt config.maxFileSize))] := by
  cases ht : config.title <;>
    simp [settings, fields, ht, Setting.ofFields_eq_map, Setting.ofItems_eq_map,
      Setting.ofJson, Json.int]

theorem get?_settings (config : Config) (field : Field) :
    config.settings.get? field.name = field.value config := by
  rw [settings_eq]
  cases ht : config.title <;> cases field <;> simp [Entries.get?, Field.name, Field.value, ht]

theorem get?_settings_unknown (config : Config) {name : String}
    (h : ∀ field : Field, field.name ≠ name) : config.settings.get? name = none := by
  have ignored := h .ignoredDirs
  have host := h .host
  have title := h .title
  have version := h .version
  have description := h .description
  have cache := h .cacheDirName
  have workers := h .maxWorkers
  have size := h .maxFileSize
  simp only [Field.name] at *
  rw [settings_eq]
  cases config.title <;> simp [Entries.get?, *]

/-! ### Checks -/

/-- A check is passed by just the values that are taken, and gives what they stand for: `shown` is
how that is written as a setting, if it is written at all. -/
structure Passes {α : Type} (check : List String → Setting → Checked α) (shown : α → Option Setting)
    (taken : Setting → Prop) : Prop where
  ok_iff : ∀ place value a, check place value = .ok a ↔ shown a = some value ∧ taken value
  exists_shown : ∀ value, taken value → ∃ a, shown a = some value
  injective : Function.Injective shown

theorem passes_text {test : String → List SettingFault} {taken : String → Prop}
    (h : ∀ s, test s = [] ↔ taken s) :
    Passes (checkText test) (fun s => some (.text s)) (IsText taken) where
  ok_iff place value s := by
    rw [checkText_eq_ok, h]
    constructor
    · rintro ⟨rfl, hs⟩
      exact ⟨rfl, s, rfl, hs⟩
    · rintro ⟨hv, t, rfl, ht⟩
      obtain rfl : s = t := Setting.text.inj (Option.some.inj hv)
      exact ⟨rfl, ht⟩
  exists_shown := by
    rintro _ ⟨s, rfl, -⟩
    exact ⟨s, rfl⟩
  injective s t hst := Setting.text.inj (Option.some.inj hst)

theorem passes_any :
    Passes (checkText fun _ => []) (fun s => some (.text s)) (IsText fun _ => True) :=
  passes_text fun _ => by simp

theorem Passes.map_some {check : List String → Setting → Checked String} {taken : Setting → Prop}
    (h : Passes check (fun s => some (.text s)) taken) :
    Passes (fun place value => (check place value).map some) (Option.map .text) taken where
  ok_iff place value a := by
    rw [Checked.map_eq_ok]
    constructor
    · rintro ⟨s, hs, rfl⟩
      exact (h.ok_iff place value s).1 hs
    · rintro ⟨ha, hv⟩
      obtain ⟨s, rfl, hs⟩ := Option.map_eq_some_iff.1 ha
      exact ⟨s, (h.ok_iff place value s).2 ⟨congrArg some hs, hv⟩, rfl⟩
  exists_shown value hv := by
    obtain ⟨s, hs⟩ := h.exists_shown value hv
    exact ⟨some s, hs⟩
  injective := Option.map_injective fun s t hst => Setting.text.inj hst

theorem emptiness_eq_nil (s : String) : emptiness s = [] ↔ s ≠ "" := by
  simp [emptiness]

theorem addressFaults_eq_nil (s : String) :
    addressFaults s = [] ↔ Url.isComplete s.toList = true := by
  simp [addressFaults]

theorem checkNamesFrom_eq_ok {place : List String} {index : Nat} {items : List Setting}
    {names : List String} :
    checkNamesFrom place index items = .ok names ↔ items = names.map .text ∧ "" ∉ names := by
  induction items generalizing index names with
  | nil => cases names <;> simp [checkNamesFrom]
  | cons item rest ih =>
    simp only [checkNamesFrom, Checked.map_eq_ok, Prod.exists, Checked.both_eq_ok,
      checkText_eq_ok, ih, emptiness_eq_nil]
    constructor
    · rintro ⟨name, names, ⟨⟨rfl, hn⟩, rfl, hr⟩, rfl⟩
      exact ⟨rfl, by simp [hr, Ne.symm hn]⟩
    · rintro ⟨hs, hn⟩
      cases names with
      | nil => cases hs
      | cons name names =>
        obtain ⟨rfl, rfl⟩ := List.cons.inj hs
        rw [List.mem_cons, not_or] at hn
        exact ⟨name, names, ⟨⟨rfl, Ne.symm hn.1⟩, rfl, hn.2⟩, rfl⟩

theorem passes_names :
    Passes checkNames (fun names => some (.list (names.map .text))) AreNames where
  ok_iff place value names := by
    cases value with
    | list items =>
      rw [checkNames, checkNamesFrom_eq_ok]
      constructor
      · rintro ⟨rfl, hn⟩
        exact ⟨rfl, names, rfl, hn⟩
      · rintro ⟨hv, others, ho, hn⟩
        have same := Setting.list.inj (Option.some.inj hv)
        rw [Setting.list.injEq, ← same] at ho
        obtain rfl := List.map_injective_iff.2 (fun s t => Setting.text.inj) ho
        exact ⟨same.symm, hn⟩
    | _ => simp [checkNames, Checked.wrongKind]
  exists_shown := by
    rintro _ ⟨names, rfl, -⟩
    exact ⟨names, rfl⟩
  injective names others h :=
    List.map_injective_iff.2 (fun s t => Setting.text.inj) (Setting.list.inj (Option.some.inj h))

theorem isWhole_iff (x : Number) : x.isWhole = true ↔ ∃ n : Int, x = .ofInt n := by
  cases x with
  | finite q =>
    simp only [Number.isWhole, Number.toInt?, Number.ofInt, Number.finite.injEq]
    constructor
    · intro h
      have hq : q.den = 1 := by
        by_contra hq
        simp [hq] at h
      exact ⟨q.num, ((Rat.den_eq_one_iff q).1 hq).symm⟩
    · rintro ⟨n, rfl⟩
      simp
  | _ => simp [Number.isWhole, Number.toInt?, Number.ofInt]

@[simp] theorem atLeast_ofInt (bound n : Int) :
    (Number.ofInt n).atLeast bound = decide (bound ≤ n) := by
  simp [Number.atLeast, Number.ofInt]

@[simp] theorem atMost_ofInt (bound n : Int) :
    (Number.ofInt n).atMost bound = decide (n ≤ bound) := by
  simp [Number.atMost, Number.ofInt]

theorem boundFaults_eq_nil {least : Nat} {greatest : Option Nat} {x : Number} :
    boundFaults least greatest x = [] ↔
      ∃ n : Nat, x = .ofInt n ∧ least ≤ n ∧ ∀ bound ∈ greatest, n ≤ bound := by
  have bounds : ∀ n : Int, boundFaults least greatest (.ofInt n) = [] ↔
      (least : Int) ≤ n ∧ ∀ bound ∈ greatest, n ≤ (bound : Int) := by
    intro n
    have whole : (Number.ofInt n).isWhole = true := (isWhole_iff _).2 ⟨n, rfl⟩
    cases greatest <;> simp [boundFaults, whole]
  constructor
  · intro h
    have whole : x.isWhole = true := by
      by_contra broken
      simp [boundFaults, broken] at h
    obtain ⟨n, rfl⟩ := (isWhole_iff x).1 whole
    obtain ⟨low, high⟩ := (bounds n).1 h
    obtain ⟨m, rfl⟩ := Int.eq_ofNat_of_zero_le (by omega : 0 ≤ n)
    exact ⟨m, rfl, by omega, fun bound hb => by have := high bound hb; omega⟩
  · rintro ⟨n, rfl, low, high⟩
    exact (bounds n).2 ⟨by omega, fun bound hb => by have := high bound hb; omega⟩

theorem ofInt_injective {m n : Nat} (h : Number.ofInt m = Number.ofInt n) : m = n := by
  simpa [Number.ofInt] using h

theorem passes_count (least : Nat) (greatest : Option Nat) :
    Passes (checkCount least greatest) (fun n =>
      some (.number (.ofInt n))) (IsCount least greatest) where
  ok_iff place value n := by
    have checked : ∀ x, checkCount least greatest place (.number x) = .ok n ↔
        boundFaults least greatest x = [] ∧ (x.toInt?.getD 0).toNat = n := by
      intro x
      cases x with
      | notANumber =>
        simp [checkCount, Checked.wrongKind, boundFaults, Number.isWhole, Number.toInt?]
      | _ => rw [checkCount, Checked.flawless_eq_ok]; simp
    cases value with
    | number x =>
      rw [checked, boundFaults_eq_nil]
      constructor
      · rintro ⟨⟨m, rfl, bounds⟩, hm⟩
        obtain rfl : m = n := by simpa [Number.ofInt, Number.toInt?] using hm
        exact ⟨rfl, m, rfl, bounds⟩
      · rintro ⟨hx, m, hm, bounds⟩
        obtain rfl := Setting.number.inj hm
        exact ⟨⟨m, rfl, bounds⟩, by simpa [Number.ofInt, Number.toInt?] using hx.symm⟩
    | _ => simp [checkCount, Checked.wrongKind]
  exists_shown := by
    rintro _ ⟨n, rfl, -⟩
    exact ⟨n, rfl⟩
  injective m n h := ofInt_injective (Setting.number.inj (Option.some.inj h))

/-! ### Configurations out of settings -/

section

variable {α : Type} {check : List String → Setting → Checked α} {shown : α → Option Setting}
  {taken : Setting → Prop} {fields : Entries Setting} {name : String}

theorem Passes.field_eq_ok (h : Passes check shown taken) {standard a : α} :
    checkField fields name standard check = .ok a ↔
      (fields.get? name = none ∧ shown a = shown standard) ∨
        ∃ value, fields.get? name = some value ∧ shown a = some value ∧ taken value := by
  unfold checkField
  cases hv : fields.get? name with
  | none => simp [h.injective.eq_iff, eq_comm]
  | some value => simp [h.ok_iff]

theorem Passes.exists_field (h : Passes check shown taken) (standard : α)
    (taken : ∀ value, fields.get? name = some value → taken value) :
    ∃ a, checkField fields name standard check = .ok a := by
  cases hv : fields.get? name with
  | none => exact ⟨standard, h.field_eq_ok.2 (.inl ⟨hv, rfl⟩)⟩
  | some value =>
    obtain ⟨a, ha⟩ := h.exists_shown value (taken value hv)
    exact ⟨a, h.field_eq_ok.2 (.inr ⟨value, hv, ha, taken value hv⟩)⟩

end

variable {fields : Entries Setting} {config : Config}

/-- What settings give a field: the value that is set, which has to be one that it takes, or else
the default. -/
def Field.Gives (fields : Entries Setting) (config : Config) (field : Field) : Prop :=
  (fields.get? field.name = none ∧ field.value config = field.value default) ∨
    ∃ value, fields.get? field.name = some value ∧ field.value config = some value ∧
    field.Takes value

theorem ofFields_eq_ok_iff : ofFields fields = .ok config ↔ ∀ field :
    Field, field.Gives fields config := by
  rw [ofFields_eq_ok, passes_names.field_eq_ok, (passes_text addressFaults_eq_nil).field_eq_ok,
    (passes_text emptiness_eq_nil).map_some.field_eq_ok, (passes_text emptiness_eq_nil).field_eq_ok,
    passes_any.field_eq_ok, (passes_text fun _ => nameFaults_eq_nil).field_eq_ok,
    (passes_count 1 (some workersLimit)).field_eq_ok, (passes_count 0 none).field_eq_ok]
  constructor
  · rintro ⟨ignored, host, title, version, description, cache, workers, size⟩ (_ | _)
    exacts [ignored, host, title, version, description, cache, workers, size]
  · exact fun h => ⟨h .ignoredDirs, h .host, h .title, h .version, h .description, h .cacheDirName,
      h .maxWorkers, h .maxFileSize⟩

theorem exists_ofFields_iff : (∃ config, ofFields fields = .ok config) ↔
    ∀ (field : Field) value, fields.get? field.name = some value → field.Takes value := by
  constructor
  · rintro ⟨config, h⟩ field value hv
    rcases ofFields_eq_ok_iff.1 h field with ⟨missing, -⟩ | ⟨other, ho, -, taken⟩
    · rw [missing] at hv
      cases hv
    · rw [ho] at hv
      exact Option.some.inj hv ▸ taken
  · intro h
    obtain ⟨ignored, hi⟩ := passes_names.exists_field default.ignoredDirs (h .ignoredDirs)
    obtain ⟨host, hh⟩ := (passes_text addressFaults_eq_nil).exists_field default.host (h .host)
    obtain ⟨title, ht⟩ :=
      (passes_text emptiness_eq_nil).map_some.exists_field default.title (h .title)
    obtain ⟨version, hv⟩ := (passes_text emptiness_eq_nil).exists_field default.version (h .version)
    obtain ⟨description, hd⟩ := passes_any.exists_field default.description (h .description)
    obtain ⟨cache, hc⟩ := (passes_text fun _ => nameFaults_eq_nil).exists_field default.cacheDirName
      (h .cacheDirName)
    obtain ⟨workers, hw⟩ := (passes_count 1 (some workersLimit)).exists_field default.maxWorkers
      (h .maxWorkers)
    obtain ⟨size, hs⟩ := (passes_count 0 none).exists_field default.maxFileSize (h .maxFileSize)
    exact ⟨⟨ignored, host, title, version, description, cache, workers, size⟩,
      ofFields_eq_ok.2 ⟨hi, hh, ht, hv, hd, hc, hw, hs⟩⟩

def Valid (config : Config) : Prop :=
  ∀ (field : Field) value, field.value config = some value → field.Takes value

theorem valid_default : Valid default := by
  intro field value hv
  cases field with
  | title => cases hv
  | ignoredDirs => exact Option.some.inj hv ▸ ⟨default.ignoredDirs, rfl, by decide⟩
  | host => exact Option.some.inj hv ▸ ⟨default.host, rfl, by decide⟩
  | version => exact Option.some.inj hv ▸ ⟨default.version, rfl, by decide⟩
  | description => exact Option.some.inj hv ▸ ⟨default.description, rfl, trivial⟩
  | cacheDirName => exact Option.some.inj hv ▸ ⟨default.cacheDirName, rfl, by decide⟩
  | maxWorkers => exact Option.some.inj hv ▸ ⟨default.maxWorkers, rfl, by decide⟩
  | maxFileSize => exact Option.some.inj hv ▸ ⟨default.maxFileSize, rfl, by decide⟩

theorem valid_of_ofFields (h : ofFields fields = .ok config) : Valid config := by
  intro field value hv
  rcases ofFields_eq_ok_iff.1 h field with ⟨-, standard⟩ | ⟨other, -, ho, taken⟩
  · exact valid_default field value (standard ▸ hv)
  · rw [ho] at hv
    exact Option.some.inj hv ▸ taken

end Config

end EndpointAtlas

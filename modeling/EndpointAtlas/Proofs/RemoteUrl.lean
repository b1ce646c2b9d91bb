import EndpointAtlas.Proofs.Text.Runs
import EndpointAtlas.RemoteUrl
import Mathlib.Data.List.Basic

set_option autoImplicit false

namespace EndpointAtlas.RemoteUrl

def scheme (secure : Bool) : List Char := if secure then "https://".toList else "http://".toList

/-- An address of the web with no at sign between the slashes behind its scheme and the next one. -/
def TellsNoUser (url : List Char) : Prop :=
  ∃ secure rest, url = scheme secure ++ rest ∧ '@' ∉ rest.takeWhile (· ≠ '/')

/-- A remote by its parts. Behind a scheme stands an authority, which may hold a user and ends where
the path starts. -/
inductive Remote where
  | scp (user host path : List Char)
  | ssh (authority path : List Char)
  | web (secure : Bool) (authority path : List Char)

namespace Remote

def text : Remote → List Char
  | scp user host path => user ++ '@' :: host ++ ':' :: path
  | ssh authority path => "ssh://".toList ++ (authority ++ path)
  | web secure authority path => scheme secure ++ (authority ++ path)

/-- The parts are cut where they have to be: a user ends at the last at sign before the first
colon. -/
def IsProper : Remote → Prop
  | scp user host path =>
    user ≠ [] ∧ host ≠ [] ∧ path ≠ [] ∧ ':' ∉ user ∧ '/' ∉ user ∧ ':' ∉ host ∧ '/' ∉ host ∧
      '@' ∉ host
  | ssh authority path => '/' ∉ authority ∧ ∀ c ∈ path.head?, c = '/'
  | web _ authority path => '/' ∉ authority ∧ ∀ c ∈ path.head?, c = '/'

def LosesUser : Remote → Prop
  | scp user _ path => (∀ c ∈ user, isUserChar c = true) ∧ ∀ c ∈ path, isLineEnd c = false
  | ssh authority _ => authority.count '@' ≤ 1 ∧ authority.head? ≠ some '@'
  | web _ authority _ => '@' ∉ authority

end Remote

variable {url authority path : List Char}

/-! ### Addresses of the web -/

theorem scheme_eq (secure : Bool) :
    ∃ name, scheme secure = name ++ ':' :: ['/', '/'] ∧ ':' ∉ name ∧ '@' ∉ name := by
  cases secure with
  | true => exact ⟨"https".toList, by decide, by decide, by decide⟩
  | false => exact ⟨"http".toList, by decide, by decide, by decide⟩

theorem scheme_append_inj {secure secure' : Bool} {s t : List Char}
    (h : scheme secure ++ s = scheme secure' ++ t) : s = t := by
  cases secure <;> cases secure' <;> simp [scheme] at h <;> exact h

theorem tellsNoUser_scheme (secure : Bool) (ha : '/' ∉ authority) (hp : ∀ c ∈ path.head?, c = '/') :
    TellsNoUser (scheme secure ++ (authority ++ path)) ↔ '@' ∉ authority := by
  have cut : (authority ++ path).takeWhile (· ≠ '/') = authority := by
    apply Text.takeWhile_append_stop (Text.ne_of_not_mem ha)
    intro c hc
    simp [hp c hc]
  constructor
  · intro h
    obtain ⟨secure', rest, same, clean⟩ := h
    rw [scheme_append_inj same] at cut
    rwa [cut] at clean
  · intro clean
    exact ⟨secure, authority ++ path, rfl, by rwa [cut]⟩

theorem TellsNoUser.before_colon {front back : List Char} (h : TellsNoUser (front ++ ':' :: back))
    (hf : ':' ∉ front) : '@' ∉ front := by
  obtain ⟨secure, rest, same, -⟩ := h
  obtain ⟨name, spelled, hcolon, hat⟩ := scheme_eq secure
  rw [spelled, List.append_assoc, List.cons_append] at same
  rwa [(Text.append_cons_inj_of_first hf hcolon same).1]

theorem withoutEnding_cases (url : List Char) :
    withoutEnding url = url ∨ url = withoutEnding url ++ ".git".toList := by
  unfold withoutEnding
  split
  · rename_i h
    obtain ⟨front, rfl⟩ := List.isSuffixOf_iff_suffix.mp h
    right
    simp
  · left
    rfl

theorem slash_mem_of_suffix_scheme {secure : Bool} {extra : List Char} (h : extra <:+ scheme secure)
    (hne : extra ≠ []) : '/' ∈ extra := by
  obtain ⟨front, hs⟩ := h
  obtain ⟨rest, last, rfl⟩ := (List.eq_nil_or_concat extra).resolve_left hne
  have hlast := congrArg List.getLast? hs
  rw [List.concat_eq_append, ← List.append_assoc, List.getLast?_concat] at hlast
  cases secure <;> simp [scheme] at hlast <;> simp [hlast]

theorem tellsNoUser_append_ending (short : List Char) :
    TellsNoUser (short ++ ".git".toList) ↔ TellsNoUser short := by
  constructor
  · intro h
    obtain ⟨secure, rest, same, clean⟩ := h
    cases List.append_eq_append_iff.mp same with
    | inl h =>
      -- The ending holds no slash, so it does not reach into the scheme.
      obtain ⟨extra, hs, he⟩ := h
      have empty : extra = [] := by
        by_contra hne
        have hslash := slash_mem_of_suffix_scheme ⟨short, hs.symm⟩ hne
        have : '/' ∈ ".git".toList := he ▸ List.mem_append_left rest hslash
        simp at this
      subst extra
      exact ⟨secure, [], by simpa using hs.symm, by simp⟩
    | inr h =>
      obtain ⟨kept, hs, hr⟩ := h
      refine ⟨secure, kept, hs, ?_⟩
      intro hat
      rw [hr, List.takeWhile_append] at clean
      split at clean
      · exact clean (List.mem_append_left _ ((List.takeWhile_sublist _).subset hat))
      · exact clean hat
  · intro h
    obtain ⟨secure, rest, rfl, clean⟩ := h
    refine ⟨secure, rest ++ ".git".toList, by simp, ?_⟩
    rw [List.takeWhile_append]
    split
    · rename_i whole
      rw [(List.takeWhile_prefix _).eq_of_length whole] at clean
      simpa using clean
    · exact clean

theorem tellsNoUser_withoutEnding : TellsNoUser (withoutEnding url) ↔ TellsNoUser url := by
  cases withoutEnding_cases url with
  | inl h => rw [h]
  | inr h =>
    have := tellsNoUser_append_ending (withoutEnding url)
    rw [← h] at this
    exact this.symm

/-! ### What is read as `user@host:path` -/

/-- The parts that are read: a user of word characters, dots and dashes, a host up to the first
colon, and a path on one line. -/
structure ReadsAs (url user host path : List Char) : Prop where
  spelled : url = user ++ '@' :: host ++ ':' :: path
  someUser : user ≠ []
  plainUser : ∀ c ∈ user, isUserChar c = true
  someHost : host ≠ []
  noColon : ':' ∉ host
  somePath : path ≠ []
  oneLine : ∀ c ∈ path, isLineEnd c = false

theorem ReadsAs.colon_not_mem {user host : List Char} (h : ReadsAs url user host path) :
    ':' ∉ user ++ '@' :: host := by
  have hu : ':' ∉ user := by
    intro hc
    have := h.plainUser _ hc
    simp [isUserChar, Text.isWordChar, Text.isAsciiLetter, Text.isAsciiDigit] at this
  simp [hu, h.noColon]

theorem ReadsAs.hostAndPath? {user host : List Char} (h : ReadsAs url user host path) :
    hostAndPath? url = some (host, path) := by
  have notAt : isUserChar '@' = false := by decide
  have spelled : url = user ++ '@' :: (host ++ ':' :: path) := by
    rw [h.spelled, List.append_assoc, List.cons_append]
  have hcut := Text.ne_of_not_mem h.noColon
  have hdrop : url.dropWhile isUserChar = '@' :: (host ++ ':' :: path) := by
    rw [spelled, Text.dropWhile_append_stop h.plainUser (by simp [notAt])]
  have htake : url.takeWhile isUserChar = user := by
    rw [spelled, Text.takeWhile_append_stop h.plainUser (by simp [notAt])]
  have hhost : (host ++ ':' :: path).takeWhile (· ≠ ':') = host :=
    Text.takeWhile_append_stop hcut (by simp)
  have hpath : (host ++ ':' :: path).dropWhile (· ≠ ':') = ':' :: path :=
    Text.dropWhile_append_stop hcut (by simp)
  have hline : path.any isLineEnd = false := by simpa using h.oneLine
  simp only [RemoteUrl.hostAndPath?, hdrop, htake, hhost, hpath]
  simp [h.someUser, h.someHost, h.somePath, hline]

theorem exists_readsAs {host : List Char} (h : hostAndPath? url = some (host, path)) :
    ∃ user, ReadsAs url user host path := by
  unfold hostAndPath? at h
  split at h
  · rename_i rest hrest
    simp only at h
    split at h
    · rename_i found hfound
      split at h
      · simp at h
      · rename_i hgood
        simp only [Option.some.injEq, Prod.mk.injEq] at h
        obtain ⟨rfl, rfl⟩ := h
        simp only [not_or, List.isEmpty_iff, Bool.not_eq_true, List.any_eq_false] at hgood
        obtain ⟨hu, hh, hp, hl⟩ := hgood
        refine ⟨url.takeWhile isUserChar, ?_, hu, fun c =>
          List.mem_takeWhile_imp, hh, ?_, hp, by simpa using hl⟩
        · calc url = url.takeWhile isUserChar ++ url.dropWhile isUserChar :=
            List.takeWhile_append_dropWhile.symm
            _ = url.takeWhile isUserChar ++
                '@' :: (rest.takeWhile (· ≠ ':') ++ rest.dropWhile (· ≠ ':')) := by
              rw [hrest, List.takeWhile_append_dropWhile]
            _ = _ := by rw [hfound]; simp
        · intro hc
          simpa using List.mem_takeWhile_imp hc
    · simp at h
  · simp at h

theorem hostAndPath?_eq_none {front back : List Char} (hc : ':' ∉ front) (ha : '@' ∉ front) :
    hostAndPath? (front ++ ':' :: back) = none := by
  by_contra h
  obtain ⟨⟨host, path⟩, hsome⟩ := Option.ne_none_iff_exists'.mp h
  obtain ⟨user, reads⟩ := exists_readsAs hsome
  obtain ⟨rfl, -⟩ := Text.append_cons_inj_of_first hc reads.colon_not_mem reads.spelled
  simp at ha

/-! ### The forms of remotes -/

section
variable {remote : List Char}

theorem browsable_of_read {host : List Char}
    (h : hostAndPath? (Text.trim remote) = some (host, path)) :
    browsable remote = withoutEnding (scheme true ++ (host ++ '/' :: path)) := by
  simp [browsable, h, scheme]

theorem browsable_of_ssh {rest : List Char} (h : Text.trim remote = "ssh://".toList ++ rest) :
    browsable remote = withoutEnding (scheme true ++ withoutUser rest) := by
  have unread : hostAndPath? ("ssh".toList ++ ':' :: '/' :: '/' :: rest) = none :=
    hostAndPath?_eq_none (by decide) (by decide)
  have spelled : Text.trim remote = "ssh".toList ++ ':' :: '/' :: '/' :: rest := h
  simp only [browsable, spelled, unread]
  simp [scheme]

theorem browsable_of_other (h : hostAndPath? (Text.trim remote) = none)
    (hs : ¬"ssh://".toList <+: Text.trim remote) :
    browsable remote = withoutEnding (Text.trim remote) := by
  rw [← List.isPrefixOf_iff_prefix, Bool.not_eq_true] at hs
  simp only [browsable, h, hs]
  rfl

theorem at_not_mem_of_plain {user : List Char} (h : ∀ c ∈ user, isUserChar c = true) :
    '@' ∉ user := by
  intro hc
  have := h _ hc
  simp [isUserChar, Text.isWordChar, Text.isAsciiLetter, Text.isAsciiDigit] at this

theorem tellsNoUser_browsable_scp {user host : List Char}
    (proper : (Remote.scp user host path).IsProper)
    (h : Text.trim remote = (Remote.scp user host path).text) :
    TellsNoUser (browsable remote) ↔ (Remote.scp user host path).LosesUser := by
  obtain ⟨someUser, someHost, somePath, huc, hus, hhc, hhs, hha⟩ := proper
  have hfront : ':' ∉ user ++ '@' :: host := by simp [huc, hhc]
  cases hread : hostAndPath? (Text.trim remote) with
  | some found =>
    obtain ⟨host', path'⟩ := found
    obtain ⟨user', reads⟩ := exists_readsAs hread
    obtain ⟨same, rfl⟩ :=
      Text.append_cons_inj_of_first hfront reads.colon_not_mem (h ▸ reads.spelled)
    have slash : '/' ∉ host' := by
      intro hs
      have : '/' ∈ user ++ '@' :: host := by simp [same, hs]
      simp [hus, hhs] at this
    rw [browsable_of_read hread, tellsNoUser_withoutEnding, tellsNoUser_scheme true slash (by simp)]
    -- Both users end at the last at sign once the one has only characters of users, or the other's
    -- host has no at sign.
    constructor
    · intro clean
      have hu := at_not_mem_of_plain reads.plainUser
      obtain ⟨rfl, -⟩ := (List.append_cons_inj_of_notMem hu clean).mp same.symm
      exact ⟨reads.plainUser, reads.oneLine⟩
    · intro loses
      have hu := at_not_mem_of_plain loses.1
      obtain ⟨-, -, rfl⟩ := (List.append_cons_inj_of_notMem hu hha).mp same
      exact hha
  | none =>
    have notSsh : ¬"ssh://".toList <+: Text.trim remote := by
      intro hp
      obtain ⟨rest, hp⟩ := hp
      have hs : "ssh".toList ++ ':' :: ('/' :: '/' :: rest) = user ++ '@' :: host ++ ':' :: path :=
        hp.trans h
      have := (Text.append_cons_inj_of_first (by decide) hfront hs).1
      have : '@' ∈ "ssh".toList := by simp [this]
      simp at this
    rw [browsable_of_other hread notSsh, tellsNoUser_withoutEnding, h]
    constructor
    · intro tells
      have := tells.before_colon hfront
      simp at this
    · intro loses
      have reads : ReadsAs (Text.trim remote) user host path :=
        ⟨h, someUser, loses.1, someHost, hhc, somePath, loses.2⟩
      simp [reads.hostAndPath?] at hread

theorem inUser_of_not_mem {user : List Char} (ha : '@' ∉ user) (hs : '/' ∉ user) :
    ∀ c ∈ user, (c ≠ '@' && c ≠ '/') = true := by
  intro c hc
  have notAt : c ≠ '@' := fun same => ha (same ▸ hc)
  have notSlash : c ≠ '/' := fun same => hs (same ▸ hc)
  simp [notAt, notSlash]

theorem withoutUser_of_user {user : List Char} (hu : user ≠ []) (ha : '@' ∉ user) (hs : '/' ∉ user)
    (rest : List Char) : withoutUser (user ++ '@' :: rest) = rest := by
  have inside := inUser_of_not_mem ha hs
  have hdrop := Text.dropWhile_append_stop (t := '@' :: rest) inside (by simp)
  have htake := Text.takeWhile_append_stop (t := '@' :: rest) inside (by simp)
  simp only [withoutUser, hdrop, htake]
  simp [hu]

theorem withoutUser_of_none (ha : '@' ∉ authority) (hs : '/' ∉ authority)
    (hp : ∀ c ∈ path.head?, c = '/') : withoutUser (authority ++ path) = authority ++ path := by
  have hdrop :=
    Text.dropWhile_append_stop (t := path) (inUser_of_not_mem ha hs) (by intro c hc; simp [hp c hc])
  simp only [withoutUser, hdrop]
  cases path with
  | nil => rfl
  | cons c rest =>
    have := hp c rfl
    subst c
    rfl

theorem tellsNoUser_browsable_ssh (proper : (Remote.ssh authority path).IsProper)
    (h : Text.trim remote = (Remote.ssh authority path).text) :
    TellsNoUser (browsable remote) ↔ (Remote.ssh authority path).LosesUser := by
  obtain ⟨hs, hp⟩ := proper
  rw [browsable_of_ssh h, tellsNoUser_withoutEnding]
  by_cases ha : '@' ∈ authority
  · obtain ⟨user, host, rfl, hu⟩ := List.eq_append_cons_of_mem ha
    have hcount : (user ++ '@' :: host).count '@' = host.count '@' + 1 := by
      simp [List.count_append, List.count_eq_zero.mpr hu]
    by_cases empty : user = []
    · subst empty
      have kept : withoutUser ([] ++ '@' :: host ++ path) =
          [] ++ '@' :: host ++ path := by simp [withoutUser]
      rw [kept, tellsNoUser_scheme true hs hp]
      simp [Remote.LosesUser]
    · have hus : '/' ∉ user := fun hm => hs (List.mem_append_left _ hm)
      have hhs : '/' ∉ host := fun hm => hs (List.mem_append_right _ (List.mem_cons_of_mem _ hm))
      have hhead : (user ++ '@' :: host).head? ≠ some '@' := by
        rw [List.head?_append_of_ne_nil _ empty]
        exact fun hc => hu (List.mem_of_head? hc)
      rw [List.append_assoc, List.cons_append, withoutUser_of_user empty hu hus,
        tellsNoUser_scheme true hhs hp]
      rw [Remote.LosesUser, hcount, and_iff_left hhead, ← List.count_eq_zero]
      omega
  · rw [withoutUser_of_none ha hs hp, tellsNoUser_scheme true hs hp]
    have hhead : authority.head? ≠ some '@' := fun hc => ha (List.mem_of_head? hc)
    simp [Remote.LosesUser, ha, hhead, List.count_eq_zero.mpr ha]

theorem tellsNoUser_browsable_web {secure : Bool}
    (proper : (Remote.web secure authority path).IsProper)
    (h : Text.trim remote = (Remote.web secure authority path).text) :
    TellsNoUser (browsable remote) ↔ (Remote.web secure authority path).LosesUser := by
  obtain ⟨hs, hp⟩ := proper
  obtain ⟨name, spelled, hcolon, hat⟩ := scheme_eq secure
  have hread : hostAndPath? (Text.trim remote) = none := by
    rw [h, Remote.text, spelled, List.append_assoc]
    exact hostAndPath?_eq_none hcolon hat
  have notSsh : ¬"ssh://".toList <+: Text.trim remote := by
    rw [h, Remote.text]
    cases secure <;> simp [scheme]
  rw [browsable_of_other hread notSsh, tellsNoUser_withoutEnding, h]
  exact tellsNoUser_scheme secure hs hp

theorem tellsNoUser_browsable {r : Remote} (proper : r.IsProper) (h : Text.trim remote = r.text) :
    TellsNoUser (browsable remote) ↔ r.LosesUser := by
  cases r with
  | scp user host path => exact tellsNoUser_browsable_scp proper h
  | ssh authority path => exact tellsNoUser_browsable_ssh proper h
  | web secure authority path => exact tellsNoUser_browsable_web proper h

end

end EndpointAtlas.RemoteUrl

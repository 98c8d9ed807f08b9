import Mineru.Remote.TaskUrl

/-!
# Task URLs keep the origin

A URL that is accepted has the origin of the base, since the parsed URL decides that. Its credentials
and its port text are read off the raw text behind the first `://`, which need not be the authority
that the parser reads: `http:user@example.com/a://b` is a URL with a user name. The accepted URL is as
promised exactly when the two readings agree on the credentials and, where the scheme is replaced, on
the port text.
-/

set_option autoImplicit false

namespace Mineru.Remote

open Ooxml (rsplitOnce)
open Vlm (splitOnce)

/-! ## The authority of the URL standard -/

/-- The standard drops the control characters and spaces around a URL. -/
def c0OrSpace (c : Char) : Bool := c.toNat ≤ 0x20

/-- The standard drops these wherever they stand. -/
def tabOrNewline (c : Char) : Bool := c = '\t' || c = '\n' || c = '\r'

def slash (c : Char) : Bool := c = '/' || c = '\\'

/-- The authority in what follows the colon of a special scheme. -/
def authorityBehind (rest : Text) : Text :=
  ((((Stems.trimEndMatches c0OrSpace rest).filter fun c => !tabOrNewline c).dropWhile slash).takeWhile
    fun c => !(endsAuthority c || c = '\\'))

/-- The authority that the standard reads in a text with a special scheme. -/
def authorityText (value : Text) : Text := authorityBehind (value.dropWhile (· ≠ ':')).tail

/-- Whether an authority has a user name or a password. -/
def hasCredentials (authority : Text) : Prop :=
  ∃ userinfo host, rsplitOnce ['@'] authority = some (userinfo, host) ∧
    userinfo ≠ [] ∧ userinfo ≠ [':']

/-- Whether a parsed URL has a user name or a password. -/
def Url.HasUserinfo (url : Url) : Prop := url.username ≠ [] ∨ url.password ≠ none

/-- The URL standard on credentials: they are those of the authority. -/
def ReadsCredentials (parse : Text → Option Url) : Prop :=
  ∀ value url, parse value = some url → url.isHttp = true →
    (url.HasUserinfo ↔ hasCredentials (authorityText value))

/-! ## What is promised, and when -/

/-- The returned text with its scheme replaced. -/
structure Upgrade (parse : Text → Option Url) (base : Url) (value u : Text) : Prop where
  replaced : u = upgraded value
  secure : base.scheme = text "https"
  returned : ∃ url, parse value = some url ∧ url.scheme = text "http" ∧ url.host = base.host
  port : (scanAuthority (authorityText value)).bind RawAuthority.explicitPort =
    base.port.map fun port => (toString port).toList

/-- What is promised of a text that is accepted. -/
structure Kept (parse : Text → Option Url) (base : Url) (value : Text) (name : String) (u : Text) :
    Prop where
  parsed : ∃ url, parse u = some url ∧ url.isHttp = true ∧ url.scheme = base.scheme ∧
    url.host = base.host ∧ url.portOrKnownDefault = base.portOrKnownDefault ∧ ¬ url.HasUserinfo
  validated : ∃ url, validateTaskUrl parse base u name = .ok url
  spelled : u = value ∨ Upgrade parse base value u

/-- A raw reading finds the credentials that the standard finds, and the same port text unless the text
has the origin of the base as it is. -/
structure Agrees (parse : Text → Option Url) (base : Url) (value : Text) : Prop where
  credentials : hasCredentials (authorityText value) →
    (rawAuthority value).all RawAuthority.hasUserinfo = true
  port : (parse value).any (sameOrigin base) = true ∨
    (rawAuthority value).bind RawAuthority.explicitPort =
      (scanAuthority (authorityText value)).bind RawAuthority.explicitPort

/-! ## What the checks say -/

section

variable {parse : Text → Option Url} {value : Text} {name : String}

theorem parseTaskUrl_ok {url : Url} (h : parseTaskUrl parse value name = .ok url) :
    parse value = some url ∧ url.isHttp = true ∧
      (rawAuthority value).all RawAuthority.hasUserinfo = false := by
  unfold parseTaskUrl at h
  cases raw : rawAuthority value with
  | none => simp only [raw] at h; cases h
  | some authority =>
    cases parsed : parse value with
    | none => simp only [raw, parsed] at h; cases h
    | some found =>
      simp only [raw, parsed] at h
      split at h
      · cases h
      · rename_i passed
        cases h
        simp only [Bool.or_eq_true, Bool.not_eq_true', not_or, Bool.not_eq_true,
          Bool.not_eq_false] at passed
        exact ⟨rfl, passed.1.2, passed.1.1⟩

theorem sameOrigin_iff {base url : Url} : sameOrigin base url = true ↔
    url.scheme = base.scheme ∧ url.host = base.host ∧
      url.portOrKnownDefault = base.portOrKnownDefault := by
  simp only [sameOrigin, Bool.and_eq_true, decide_eq_true_eq, and_assoc]

theorem validateTaskUrl_ok {base url : Url} (h : parseTaskUrl parse value name = .ok url)
    (same : sameOrigin base url = true) : validateTaskUrl parse base value name = .ok url := by
  unfold validateTaskUrl
  rw [h]
  exact if_pos same

/-- An accepted text is the returned one, with the origin of the base, or the upgraded one. -/
theorem canonicalize_ok {origin : OriginFingerprint} {u : Text}
    (h : canonicalizeSubmittedTaskUrl parse origin value name = .ok u) :
    ∃ url, parseTaskUrl parse value name = .ok url ∧
      ((sameOrigin origin.parsed url = true ∧ u = value) ∨
        (sameOrigin origin.parsed url = false ∧ origin.parsed.scheme = text "https" ∧
          url.scheme = text "http" ∧ url.host = origin.parsed.host ∧
          (rawAuthority value).bind RawAuthority.explicitPort = origin.requestPort ∧
          u = upgraded value ∧ ∃ upgradedUrl, parseTaskUrl parse u name = .ok upgradedUrl ∧
            sameOrigin origin.parsed upgradedUrl = true)) := by
  unfold canonicalizeSubmittedTaskUrl at h
  cases first : parseTaskUrl parse value name with
  | error e => rw [first] at h; cases h
  | ok url =>
    refine ⟨url, rfl, ?_⟩
    rw [first] at h
    change (if _ then _ else _) = _ at h
    split at h
    · cases h; exact .inl ⟨‹_›, rfl⟩
    · rename_i other
      refine .inr ⟨Bool.eq_false_iff.mpr other, ?_⟩
      split at h
      · cases h
      · rename_i guards
        simp only [ne_eq, Bool.or_eq_true, decide_eq_true_eq, not_or, not_not] at guards
        split at h
        · cases h
        · cases second : parseTaskUrl parse (upgraded value) name with
          | error e => rw [second] at h; cases h
          | ok upgradedUrl =>
            rw [second] at h
            change (if _ then _ else _) = _ at h
            split at h
            · cases h
              exact ⟨guards.1.1.1, guards.1.1.2, guards.1.2.symm, guards.2.symm, rfl, upgradedUrl,
                second, ‹_›⟩
            · cases h

end

/-- The scheme is no part of the authority. -/
theorem authorityText_upgraded (value : Text) : authorityText (upgraded value) = authorityText value := by
  unfold authorityText upgraded
  congr 2
  have letters : ∀ c ∈ text "https", decide (c ≠ ':') = true := by
    rw [show text "https" = ['h', 't', 't', 'p', 's'] by decide]
    simp
  rw [List.dropWhile_append_of_pos letters]
  induction value with
  | nil => rfl
  | cons c rest ih =>
    by_cases colon : c = ':'
    · simp only [List.dropWhile_cons, colon, ne_eq, not_true_eq_false, decide_false,
        Bool.false_eq_true, if_false]
    · simpa only [List.dropWhile_cons, ne_eq, colon, not_false_eq_true, decide_true, if_true] using ih

/-- The origin that is kept writes the port of the parsed base. -/
theorem configuredOrigin_port {parse : Text → Option Url} {baseUrl : Text} {origin : OriginFingerprint}
    (h : configuredOrigin parse baseUrl = .ok origin) :
    origin.requestPort = origin.parsed.port.map fun port => (toString port).toList := by
  unfold configuredOrigin at h
  dsimp only at h
  split at h
  · cases h
  · split at h
    · split at h
      · cases h
      · cases h; rfl
    · cases h

/-! ## The two readings -/

/-- What is accepted has what the parsed URL decides. -/
theorem parsed_of_accepted {parse : Text → Option Url} {base url : Url} {u : Text} {name : String}
    (reads : ReadsCredentials parse) (h : parseTaskUrl parse u name = .ok url)
    (same : sameOrigin base url = true) :
    (∃ url, parse u = some url ∧ url.isHttp = true ∧ url.scheme = base.scheme ∧
      url.host = base.host ∧ url.portOrKnownDefault = base.portOrKnownDefault ∧ ¬ url.HasUserinfo) ↔
        ¬ hasCredentials (authorityText u) := by
  obtain ⟨parsed, http, -⟩ := parseTaskUrl_ok h
  constructor
  · rintro ⟨found, again, -, -, -, -, clean⟩
    obtain rfl : url = found := Option.some.inj (parsed.symm.trans again)
    exact fun held => clean ((reads u url parsed http).mpr held)
  · intro clean
    obtain ⟨scheme, host, port⟩ := sameOrigin_iff.mp same
    exact ⟨url, parsed, http, scheme, host, port, fun held => clean ((reads u url parsed http).mp held)⟩

/-- An authority with credentials is flagged. -/
theorem flagged_of_credentials {authority : Text} (h : hasCredentials authority) :
    (scanAuthority authority).all RawAuthority.hasUserinfo = true := by
  obtain ⟨userinfo, host, split, -⟩ := h
  have sign : '@' ∈ authority := by
    induction authority generalizing userinfo with
    | nil => cases split
    | cons c rest ih =>
      by_cases first : c = '@'
      · exact first ▸ List.mem_cons_self
      · refine List.mem_cons_of_mem c ?_
        unfold rsplitOnce at split
        split at split
        · rename_i before after found
          exact ih before (by rw [found]; cases split; rfl)
        · split at split
          · rename_i here
            exact absurd (List.cons_prefix_cons.mp here).1.symm first
          · cases split
  unfold scanAuthority
  split
  · rfl
  · rw [Option.all_map]
    cases rawPort _ with
    | none => rfl
    | some port => exact decide_eq_true sign

theorem splitOnce_scheme {scheme rest : Text} (colon : ':' ∉ scheme) :
    splitOnce (text "://") (scheme ++ ':' :: '/' :: '/' :: rest) = some (scheme, rest) := by
  rw [show text "://" = [':', '/', '/'] by decide]
  induction scheme with
  | nil => simp [splitOnce, List.isPrefixOf]
  | cons c scheme ih =>
    obtain ⟨first, others⟩ := not_or.mp (List.mem_cons.not.mp colon)
    have skipped : [':', '/', '/'].isPrefixOf (c :: (scheme ++ ':' :: '/' :: '/' :: rest)) = false := by
      simp [List.isPrefixOf, first]
    rw [List.cons_append, splitOnce, if_neg (by rw [skipped]; decide), ih others]
    rfl

theorem takeWhile_congr {p q : Char → Bool} {t : Text} (same : ∀ c ∈ t, p c = q c) :
    t.takeWhile p = t.takeWhile q := by
  induction t with
  | nil => rfl
  | cons c t ih =>
    rw [List.takeWhile_cons, List.takeWhile_cons, same c List.mem_cons_self,
      ih fun d mem => same d (List.mem_cons_of_mem c mem)]

/-- Behind a scheme and two slashes both readings take the same authority, when the rest has no
backslash, space or control character and does not start with a third slash. -/
theorem rawAuthority_plain {scheme rest : Text} (colon : ':' ∉ scheme)
    (plain : ∀ c ∈ rest, 0x20 < c.toNat ∧ c ≠ '\\') (third : rest.head? ≠ some '/') :
    rawAuthority (scheme ++ ':' :: '/' :: '/' :: rest) =
      scanAuthority (authorityText (scheme ++ ':' :: '/' :: '/' :: rest)) := by
  have behind : (scheme ++ ':' :: '/' :: '/' :: rest).dropWhile (· ≠ ':') = ':' :: '/' :: '/' :: rest := by
    have letters : ∀ c ∈ scheme, decide (c ≠ ':') = true := fun c mem =>
      decide_eq_true fun same : c = ':' => colon (same ▸ mem)
    rw [List.dropWhile_append_of_pos letters]
    rfl
  have visible : ∀ c ∈ '/' :: '/' :: rest, 0x20 < c.toNat := by
    rintro c (_ | ⟨_, _ | ⟨_, mem⟩⟩)
    · decide
    · decide
    · exact (plain c mem).1
  have untrimmed : Stems.trimEndMatches c0OrSpace ('/' :: '/' :: rest) = '/' :: '/' :: rest := by
    unfold Stems.trimEndMatches
    rw [List.dropWhile_eq_self_iff.mpr, List.reverse_reverse]
    intro pos
    have := visible _ (List.mem_reverse.mp (List.getElem_mem pos))
    simpa [c0OrSpace] using this
  have unfiltered : ('/' :: '/' :: rest).filter (fun c => !tabOrNewline c) = '/' :: '/' :: rest := by
    refine List.filter_eq_self.mpr fun c mem => ?_
    have := visible c mem
    simp only [tabOrNewline, Bool.not_or, Bool.and_eq_true, Bool.not_eq_true', decide_eq_false_iff_not]
    refine ⟨⟨?_, ?_⟩, ?_⟩ <;> rintro rfl <;> revert this <;> decide
  have start : ('/' :: '/' :: rest).dropWhile slash = rest := by
    rw [List.dropWhile_cons_of_pos (by decide), List.dropWhile_cons_of_pos (by decide)]
    cases rest with
    | nil => rfl
    | cons c rest =>
      refine List.dropWhile_cons_of_neg ?_
      have backslash := (plain c List.mem_cons_self).2
      simp only [List.head?_cons, ne_eq, Option.some.injEq] at third
      simp [slash, third, backslash]
  unfold rawAuthority authorityText authorityBehind
  rw [splitOnce_scheme colon, behind, List.tail_cons, untrimmed, unfiltered, start]
  exact congrArg scanAuthority (takeWhile_congr fun c mem => by simp [(plain c mem).2])

theorem agrees_plain (parse : Text → Option Url) (base : Url) {scheme rest : Text}
    (colon : ':' ∉ scheme) (plain : ∀ c ∈ rest, 0x20 < c.toNat ∧ c ≠ '\\')
    (third : rest.head? ≠ some '/') :
    Agrees parse base (scheme ++ ':' :: '/' :: '/' :: rest) := by
  have same := rawAuthority_plain colon plain third
  constructor
  · rw [same]
    exact flagged_of_credentials
  · rw [same]
    exact .inr rfl

/-- **A URL that is accepted for a task keeps what is promised of it exactly when the raw reading
agrees** with the parser on the credentials and on the port text of the returned URL. The origin is
kept in any case, since the parser alone decides on it. -/
theorem canonicalize_kept_iff {parse : Text → Option Url} (reads : ReadsCredentials parse)
    {baseUrl : Text} {origin : OriginFingerprint} (configured : configuredOrigin parse baseUrl = .ok origin)
    {value u : Text} {name : String}
    (accepted : canonicalizeSubmittedTaskUrl parse origin value name = .ok u) :
    Kept parse origin.parsed value name u ↔ Agrees parse origin.parsed value := by
  obtain ⟨url, first, ⟨same, rfl⟩ | ⟨other, secure, plain, host, port, rfl, second, again, same⟩⟩ :=
    canonicalize_ok accepted
  · obtain ⟨parsed, -, unflagged⟩ := parseTaskUrl_ok first
    have decided := parsed_of_accepted reads first same
    constructor
    · intro kept
      exact ⟨fun held => absurd held (decided.mp kept.parsed), .inl (by rw [parsed]; exact same)⟩
    · intro agrees
      refine ⟨decided.mpr fun held => ?_, ⟨url, validateTaskUrl_ok first same⟩, .inl rfl⟩
      exact absurd (agrees.credentials held) (by rw [unflagged]; decide)
  · obtain ⟨parsed, -, unflagged⟩ := parseTaskUrl_ok first
    have decided := parsed_of_accepted reads again same
    rw [authorityText_upgraded] at decided
    have written := port.trans (configuredOrigin_port configured)
    constructor
    · intro kept
      refine ⟨fun held => absurd held (decided.mp kept.parsed), .inr ?_⟩
      rcases kept.spelled with unchanged | upgrade
      · -- the returned text itself has another origin
        rw [unchanged] at again
        obtain rfl : url = second := Except.ok.inj (first.symm.trans again)
        exact absurd same (by rw [other]; decide)
      · exact written.trans upgrade.port.symm
    · intro agrees
      have agreed : (rawAuthority value).bind RawAuthority.explicitPort =
          (scanAuthority (authorityText value)).bind RawAuthority.explicitPort := by
        refine agrees.port.resolve_left ?_
        rw [parsed]
        exact fun held => absurd held (by rw [Option.any_some, other]; decide)
      refine ⟨decided.mpr fun held => ?_, ⟨second, validateTaskUrl_ok again same⟩,
        .inr ⟨rfl, secure, ⟨url, parsed, plain, host⟩, agreed.symm.trans written⟩⟩
      exact absurd (agrees.credentials held) (by rw [unflagged]; decide)

/-! ## A parser of plain URLs -/

/-- The port of a URL, `none` when it is no number of 16 bits. -/
def readPort (scheme : Text) : Option Text → Option (Option Nat)
  | none => some none
  | some digits =>
    let port := digits.foldl (fun n c => 10 * n + (c.toNat - '0'.toNat)) 0
    if digits = [] then some none
    else if !digits.all Char.isDigit || 65536 ≤ port then none
    else if port = if scheme = text "http" then 80 else 443 then some none
    else some (some port)

/-- The URLs of the two schemes with a host of letters, digits, dots and hyphens, as the standard reads
them. -/
def readUrl (value : Text) : Option Url := do
  let scheme := (value.takeWhile (· ≠ ':')).map Char.toLower
  if scheme ≠ text "http" && scheme ≠ text "https" || ':' ∉ value then none
  let authority := authorityText value
  let (userinfo, hostPort) := (rsplitOnce ['@'] authority).getD ([], authority)
  let host := hostPort.takeWhile (· ≠ ':')
  if host = [] || !host.all fun c => c.isAlphanum || c = '.' || c = '-' then none
  let port ← readPort scheme ((splitOnce [':'] hostPort).map Prod.snd)
  let password := (userinfo.dropWhile (· ≠ ':')).tail
  some {
    scheme := scheme
    username := userinfo.takeWhile (· ≠ ':')
    password := if password = [] then none else some password
    host := some (.domain (host.map Char.toLower))
    port := port
    query := (splitOnce ['?'] (value.takeWhile (· ≠ '#'))).map Prod.snd
    fragment := (splitOnce ['#'] value).map Prod.snd }

/-- A userinfo has a name before its colon or a password behind it unless it is empty or the colon. -/
theorem userinfo_parts (userinfo : Text) :
    userinfo.takeWhile (· ≠ ':') ≠ [] ∨ (userinfo.dropWhile (· ≠ ':')).tail ≠ [] ↔
      userinfo ≠ [] ∧ userinfo ≠ [':'] := by
  cases userinfo with
  | nil => simp
  | cons c rest =>
    by_cases colon : c = ':'
    · subst colon
      simp
    · simp [colon]

theorem readUrl_reads : ReadsCredentials readUrl := by
  intro value url read _
  unfold readUrl at read
  simp only [Option.bind_eq_bind] at read
  split at read
  · cases read
  split at read
  · cases read
  obtain ⟨port, -, rest⟩ := Option.bind_eq_some_iff.mp read
  cases rest
  unfold Url.HasUserinfo hasCredentials
  cases split : rsplitOnce ['@'] (authorityText value) with
  | none => simp
  | some parts =>
    obtain ⟨userinfo, host⟩ := parts
    have parts := userinfo_parts userinfo
    simp only [Option.getD_some, Option.some.injEq, Prod.mk.injEq, ne_eq, ite_eq_left_iff, reduceCtorEq,
      imp_false, not_not] at parts ⊢
    rw [parts]
    constructor
    · exact fun held => ⟨userinfo, host, ⟨rfl, rfl⟩, held⟩
    · rintro ⟨_, _, ⟨rfl, rfl⟩, held⟩
      exact held

/-- The origin of `https://example.com`. -/
def secureOrigin : OriginFingerprint :=
  ⟨⟨text "https", [], none, some (.domain (text "example.com")), none, none, none⟩, none⟩

/-- The origin of `http://example.com`. -/
def openOrigin : OriginFingerprint :=
  ⟨⟨text "http", [], none, some (.domain (text "example.com")), none, none, none⟩, none⟩

/-- The scheme of the base replaces that of a URL of the same host. -/
theorem canonicalize_kept_upgraded :
    Kept readUrl secureOrigin.parsed (text "http://example.com/tasks/1") "status_url"
      (text "https://example.com/tasks/1") := by
  have configured : configuredOrigin readUrl (text "https://example.com/") = .ok secureOrigin := by decide
  have accepted : canonicalizeSubmittedTaskUrl readUrl secureOrigin (text "http://example.com/tasks/1")
      "status_url" = .ok (text "https://example.com/tasks/1") := by decide
  have visible : (text "example.com/tasks/1").all (fun c => decide (0x20 < c.toNat ∧ c ≠ '\\')) = true := by
    decide
  have agrees : Agrees readUrl secureOrigin.parsed (text "http://example.com/tasks/1") :=
    agrees_plain readUrl secureOrigin.parsed (by decide : ':' ∉ text "http")
      (fun c mem => of_decide_eq_true (List.all_eq_true.mp visible c mem)) (by decide)
  exact (canonicalize_kept_iff readUrl_reads configured accepted).mpr agrees

/-- The parser reads a user name in a text that passes, since the raw reading takes `b` for its
authority. -/
theorem userinfo_accepted :
    ReadsCredentials readUrl ∧
      configuredOrigin readUrl (text "http://example.com") = .ok openOrigin ∧
      canonicalizeSubmittedTaskUrl readUrl openOrigin (text "http:user@example.com/a://b") "status_url" =
        .ok (text "http:user@example.com/a://b") ∧
      (readUrl (text "http:user@example.com/a://b")).map Url.username = some (text "user") ∧
      ¬ Kept readUrl openOrigin.parsed (text "http:user@example.com/a://b") "status_url"
        (text "http:user@example.com/a://b") := by
  have user : (readUrl (text "http:user@example.com/a://b")).map Url.username = some (text "user") := by
    decide
  refine ⟨readUrl_reads, by decide, by decide, user, fun kept => ?_⟩
  obtain ⟨url, parsed, -, -, -, -, clean⟩ := kept.parsed
  rw [parsed] at user
  refine clean (.inl ?_)
  rw [Option.some.inj user]
  decide

end Mineru.Remote

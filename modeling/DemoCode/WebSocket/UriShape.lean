import DemoCode.WebSocket.ParseUri

/-! Which of the URIs that `ParseURI` accepts are well formed. -/

namespace DemoCode.WebSocket

/-- No port, or a colon and the digits of one. -/
def IsPort (port : Int) (s : List Char) : Prop :=
  s = [] ∨ ∃ ds, s = ':' :: ds ∧ ds ≠ [] ∧ (∀ c ∈ ds, c.isDigit = true) ∧
    (Nat.ofDigitChars 10 ds 0 : Int) = port

/-- No path, or a slash and one. -/
def IsPath (path s : List Char) : Prop := s = [] ∧ path = [] ∨ s = '/' :: path

/-- The URI has the parts that were read from it; a host without a name is one or not. -/
def WellFormed (named : Prop) (uri : List Char) (out : Target) : Prop :=
  ∃ (secure : Bool) (host : Host) (port path : List Char),
    uri = scheme secure ++ (host.text ++ (port ++ path)) ∧ host.Clear ∧
    (named → host.text ≠ []) ∧ IsPort out.port port ∧ IsPath out.path path

/-- What is accepted is well formed. -/
def Sound (named : Prop) (uri : List Char) (out : Target) : Prop :=
  (parseUri uri out).1 = true → WellFormed named uri (parseUri uri out).2

/-- The text behind the host has a port that `stoi` throws for. -/
def Rejected (rest : List Char) : Prop := ∃ cs, rest = ':' :: cs ∧ stoi (portText cs) = none

/-- The text behind the host is nothing, a path, or a port of digits only. -/
def Tidy (rest : List Char) : Prop :=
  rest = [] ∨ (∃ path, rest = '/' :: path) ∨ ∃ cs, rest = ':' :: cs ∧ ∀ c ∈ portText cs, c.isDigit = true

/-- Behind the scheme and the host comes nothing that `ParseURI` overlooks. -/
def NothingOverlooked (named : Prop) (uri : List Char) : Prop :=
  ∀ secure text host rest, uri = scheme secure ++ text → splitHost text = some (host, rest) →
    Rejected rest ∨ (named → host.text ≠ []) ∧ Tidy rest

section

variable {named : Prop} {uri text rest cs ds s path : List Char} {out : Target} {host : Host} {n : Int}

theorem splitHost_spec (h : splitHost s = some (host, rest)) : s = host.text ++ rest ∧ host.Clear := by
  by_cases hStart : s.head? = some '['
  · obtain ⟨cs, rfl⟩ : ∃ cs, s = '[' :: cs := List.head?_eq_some_iff.mp hStart
    by_cases hClose : ']' ∈ cs
    · obtain ⟨name, tail, rfl, hName⟩ := List.eq_append_cons_of_mem hClose
      rw [splitHost_bracketed hName] at h
      cases h
      exact ⟨by simp [Host.text], hName⟩
    · rw [splitHost, if_neg hClose] at h
      cases h
  · cases s with
    | nil => cases h
    | cons c cs =>
      rw [splitHost_plain (List.cons_ne_nil c cs) hStart] at h
      cases h
      refine ⟨by simp [Host.text], ?_, fun d hd => by simpa using List.mem_takeWhile_imp hd⟩
      rw [List.head?_takeWhile]
      intro hOpen
      exact hStart (Option.eq_some_of_filter_eq_some hOpen)

theorem scheme_inj {secure secure' : Bool} (h : scheme secure ++ text = scheme secure' ++ rest) :
    secure = secure' ∧ text = rest := by
  cases secure <;> cases secure' <;> simp_all [scheme]

theorem readPath_accepts : (readPath out rest).1 = true := by
  unfold readPath
  split <;> rfl

theorem readPort_colon : readPort out (':' :: cs) =
    match stoi (portText cs) with
    | none => (false, out)
    | some port => readPath { out with port } (cs.dropWhile (· ≠ '/')) := by
  rw [readPort]
  split_ifs with hEmpty
  · rw [hEmpty]
    rfl
  · rfl

theorem readPort_other (h : rest.head? ≠ some ':') : readPort out rest = readPath out rest := by
  rw [readPort]
  rintro cs rfl
  exact h rfl

/-- Only a port that `stoi` throws for is not accepted behind a host. -/
theorem readPort_accepts : (readPort out rest).1 = true ↔ ¬Rejected rest := by
  by_cases hColon : rest.head? = some ':'
  · obtain ⟨cs, rfl⟩ := List.head?_eq_some_iff.mp hColon
    have hRejected : Rejected (':' :: cs) ↔ stoi (portText cs) = none := by simp [Rejected]
    rw [readPort_colon, hRejected]
    cases stoi (portText cs) with
    | none => simp
    | some port => exact iff_of_true readPath_accepts nofun
  · rw [readPort_other hColon]
    refine iff_of_true readPath_accepts ?_
    rintro ⟨cs, rfl, -⟩
    exact hColon rfl

theorem IsPath.slash (h : IsPath path s) : ∀ c ∈ s.head?, c = '/' := by
  rcases h with ⟨rfl, -⟩ | rfl
  · nofun
  · exact fun c hc => (Option.some.inj hc).symm

theorem stops_of_parts (hPort : IsPort n ds) (hPath : IsPath path s) : host.Stops (ds ++ s) := by
  cases host with
  | bracketed name => trivial
  | plain name =>
    rintro c hc
    rcases hPort with rfl | ⟨ds, rfl, -⟩
    · obtain rfl := hPath.slash c hc
      rfl
    · obtain rfl := Option.some.inj hc
      rfl

theorem tidy_of_parts (hPort : IsPort n ds) (hPath : IsPath path s) : Tidy (ds ++ s) := by
  rcases hPort with rfl | ⟨ds, rfl, -, hDigits, -⟩
  · rcases hPath with ⟨rfl, -⟩ | rfl
    · exact .inl rfl
    · exact .inr (.inl ⟨path, rfl⟩)
  · refine .inr (.inr ⟨ds ++ s, rfl, ?_⟩)
    rw [(portText_append hDigits hPath.slash).1]
    exact hDigits

/-- Behind a slash, or at the end, all is read. -/
theorem readPath_slash (h : ∀ c ∈ s.head?, c = '/') : ∃ path, readPath out s = (true, { out with path }) ∧
    IsPath path s := by
  cases s with
  | nil => exact ⟨[], rfl, .inl ⟨rfl, rfl⟩⟩
  | cons c cs =>
    obtain rfl := h c rfl
    exact ⟨cs, rfl, .inr rfl⟩

theorem readPort_tidy (h : Tidy rest) (hAccept : ¬Rejected rest) :
    ∃ (r : Target) (port path : List Char), rest = port ++ path ∧ readPort out rest = (true, r) ∧
      IsPort r.port port ∧ IsPath r.path path := by
  by_cases hColon : rest.head? = some ':'
  · obtain ⟨cs, rfl⟩ := List.head?_eq_some_iff.mp hColon
    have hDigits : ∀ c ∈ portText cs, c.isDigit = true := by
      rcases h with h | ⟨path, h⟩ | ⟨cs', h, hDigits⟩
      · cases h
      · cases h
      · cases h
        exact hDigits
    obtain ⟨n, hn⟩ : ∃ n, stoi (portText cs) = some n := by
      rw [← Option.ne_none_iff_exists']
      exact fun hNone => hAccept ⟨cs, rfl, hNone⟩
    have hNe : portText cs ≠ [] := by
      intro hNil
      rw [hNil] at hn
      cases hn
    have hValue : (Nat.ofDigitChars 10 (portText cs) 0 : Int) = n := by
      rw [stoi_digits hNe hDigits] at hn
      exact (Option.some.inj (Option.ite_none_right_eq_some.mp hn).2)
    have hSlash : ∀ c ∈ (cs.dropWhile (· ≠ '/')).head?, c = '/' := by
      intro c hc
      have hNot := List.head?_dropWhile_not (· ≠ '/') cs
      rw [Option.mem_def.mp hc] at hNot
      simpa using hNot
    obtain ⟨path, hRead, hPath⟩ : ∃ path, readPath { out with port := n } (cs.dropWhile (· ≠ '/')) = _ ∧ _ :=
      readPath_slash hSlash
    refine ⟨{ out with port := n, path }, ':' :: portText cs, cs.dropWhile (· ≠ '/'), ?_, ?_,
      .inr ⟨_, rfl, hNe, hDigits, hValue⟩, hPath⟩
    · rw [portText, List.cons_append, List.takeWhile_append_dropWhile]
    · rw [readPort_colon, hn]
      exact hRead
  · rw [readPort_other hColon]
    have hSlash : ∀ c ∈ rest.head?, c = '/' := by
      rcases h with rfl | ⟨path, rfl⟩ | ⟨cs, rfl, -⟩
      · exact fun c hc => absurd hc (Option.not_mem_none c)
      · exact fun c hc => (Option.some.inj hc).symm
      · exact absurd rfl hColon
    obtain ⟨path, hRead, hPath⟩ := readPath_slash hSlash
    exact ⟨_, [], rest, rfl, hRead, .inl rfl, hPath⟩

theorem nothingOverlooked_of_sound (h : Sound named uri out) : NothingOverlooked named uri := by
  rintro secure text host rest rfl hSplit
  refine or_iff_not_imp_left.mpr fun hAccept => ?_
  rw [Sound, parseUri_scheme, readHost, hSplit] at h
  obtain ⟨secure', host', port, path, hUri, hClear, hNamed, hPort, hPath⟩ := h (readPort_accepts.mpr hAccept)
  obtain ⟨-, rfl⟩ := scheme_inj hUri
  have hNe : host'.text ++ (port ++ path) ≠ [] := by
    intro hNil
    rw [hNil] at hSplit
    cases hSplit
  rw [splitHost_text hClear (stops_of_parts hPort hPath) hNe] at hSplit
  cases hSplit
  exact ⟨hNamed, tidy_of_parts hPort hPath⟩

theorem sound_of_nothingOverlooked (h : NothingOverlooked named uri) : Sound named uri out := by
  intro hAccept
  obtain ⟨secure, text, rfl⟩ := scheme_of_parseUri hAccept
  rw [parseUri_scheme, readHost] at hAccept ⊢
  cases hSplit : splitHost text with
  | none =>
    rw [hSplit] at hAccept
    cases hAccept
  | some pair =>
    obtain ⟨host, rest⟩ := pair
    rw [hSplit] at hAccept
    have hNot := readPort_accepts.mp hAccept
    obtain ⟨hNamed, hTidy⟩ := (h secure text host rest rfl hSplit).resolve_left hNot
    obtain ⟨rfl, hClear⟩ := splitHost_spec hSplit
    obtain ⟨r, port, path, rfl, hRead, hPort, hPath⟩ : ∃ (r : Target) (port path : List Char),
        rest = port ++ path ∧ _ := readPort_tidy hTidy hNot
    dsimp only
    rw [hRead]
    exact ⟨secure, host, port, path, rfl, hClear, hNamed, hPort, hPath⟩

end

/-- **Only well-formed URIs are accepted** exactly if nothing is overlooked. -/
theorem sound_iff (named : Prop) (uri : List Char) (out : Target) :
    Sound named uri out ↔ NothingOverlooked named uri :=
  ⟨nothingOverlooked_of_sound, sound_of_nothingOverlooked⟩

/-- Text behind the digits of a port. -/
theorem not_sound : ¬∀ uri out, Sound False uri out := by
  intro h
  have hSound := h "ws://h:80abc".toList ⟨false, [], 0, []⟩
  rcases nothingOverlooked_of_sound hSound false "h:80abc".toList (.plain ['h']) ":80abc".toList (by decide) rfl
    with ⟨cs, hText, hNone⟩ | ⟨-, hText | ⟨path, hText⟩ | ⟨cs, hText, hDigits⟩⟩
  · cases hText
    exact absurd hNone (by decide)
  · cases hText
  · cases hText
  · cases hText
    exact absurd (hDigits 'a' (by decide)) (by decide)

end DemoCode.WebSocket

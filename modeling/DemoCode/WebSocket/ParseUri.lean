import Mathlib.Algebra.Group.Int.Defs
import Mathlib.Algebra.Group.Nat.Defs
import Mathlib.Data.List.TakeWhile
import Mathlib.Tactic.Common

/-! `ParseURI` of `ws_common.h`: the offsets that go over a URI, and what is read behind each of them. -/

namespace DemoCode.WebSocket

/-! ### `std::string` -/

/-- `s.find(c, offset)` and `s.find_first_of(cs, offset)`; `npos` is `none`. -/
def findFrom (s : List Char) (p : Char → Bool) (offset : Nat) : Option Nat :=
  ((s.drop offset).findIdx? p).map (offset + ·)

/-- `s.substr(offset, stop - offset)`, which goes to the end for `npos`. -/
def substr (s : List Char) (offset : Nat) : Option Nat → List Char
  | some stop => (s.drop offset).take (stop - offset)
  | none => s.drop offset

def isSpace (c : Char) : Bool := c = ' ' || ('\t'.toNat ≤ c.toNat && c.toNat ≤ '\r'.toNat)

/-- A sign, and what follows it. -/
def signed : List Char → Int × List Char
  | '-' :: ds => (-1, ds)
  | '+' :: ds => (1, ds)
  | ds => (1, ds)

/-- `stoi`: blanks, a sign and digits, whatever follows.  It throws when there is no digit, or no `int` for
them. -/
def stoi (s : List Char) : Option Int :=
  let (sign, cs) := signed (s.dropWhile isSpace)
  let digits := cs.takeWhile Char.isDigit
  let n := sign * Nat.ofDigitChars 10 digits 0
  if digits ≠ [] ∧ -2 ^ 31 ≤ n ∧ n < 2 ^ 31 then some n else none

/-! ### `ParseURI` -/

/-- The output variables. -/
structure Target where
  secure : Bool
  hostname : List Char
  port : Int
  path : List Char
  deriving DecidableEq, Repr

def isSeparator (c : Char) : Bool := c = ':' || c = '/'

def parsePath (uri : List Char) (offset : Nat) (out : Target) : Bool × Target :=
  if offset = uri.length then
    (true, { out with path := [] })
  else if uri[offset]? = some '/' then
    (true, { out with path := uri.drop (offset + 1) })
  else
    (true, out)

def parsePort (uri : List Char) (offset : Nat) (out : Target) : Bool × Target :=
  if offset = uri.length then
    (true, { out with path := [] })
  else if uri[offset]? = some ':' then
    let offset := offset + 1
    let portStr := substr uri offset (findFrom uri (· = '/') offset)
    if portStr.length = 0 then
      (false, out)
    else
      match stoi portStr with
      | none => (false, out)
      | some port => parsePath uri (offset + portStr.length) { out with port }
  else
    parsePath uri offset out

def parseHost (uri : List Char) (offset : Nat) (out : Target) : Bool × Target :=
  if offset = uri.length then
    (false, out)
  else if uri[offset]? = some '[' then
    let offset := offset + 1
    if offset = uri.length then
      (false, out)
    else
      match findFrom uri (· = ']') offset with
      | none => (false, out)
      | some endBracket =>
        parsePort uri (endBracket + 1) { out with hostname := substr uri offset (some endBracket) }
  else
    let hostname := substr uri offset (findFrom uri isSeparator offset)
    parsePort uri (offset + hostname.length) { out with hostname }

def parseUri (uri : List Char) (out : Target) : Bool × Target :=
  let out := { out with port := 80, secure := false }
  if uri.take 6 = "wss://".toList then
    parseHost uri 6 { out with port := 443, secure := true }
  else if uri.take 5 ≠ "ws://".toList then
    (false, out)
  else
    parseHost uri 5 out

/-! ### What is behind an offset -/

section

variable {front rest s cs ds : List Char} {p : Char → Bool} {c : Char} {n : Nat} {out : Target}

theorem drop_front : (front ++ rest).drop front.length = rest := List.drop_left

theorem substr_findFrom : substr (front ++ rest) front.length (findFrom (front ++ rest) p front.length) =
    rest.takeWhile fun c => !p c := by
  rw [findFrom, drop_front, List.takeWhile_eq_take_findIdx_not]
  simp only [Bool.not_not]
  cases hFind : rest.findIdx? p with
  | none =>
    rw [Option.map_none, substr, drop_front, List.take_of_length_le]
    rw [List.findIdx?_eq_none_iff] at hFind
    exact (List.findIdx_eq_length.mpr hFind).ge
  | some i =>
    rw [List.findIdx?_eq_some_iff_findIdx_eq] at hFind
    rw [Option.map_some, substr, drop_front, Nat.add_sub_cancel_left, hFind.2]

theorem findFrom_stop (p : Char → Bool) (h : ∀ c ∈ s, p c = false) (hc : p c = true) :
    findFrom (front ++ (s ++ c :: cs)) p front.length = some (front.length + s.length) := by
  have hIdx : s.findIdx? p = none := List.findIdx?_eq_none_iff.mpr h
  rw [findFrom, drop_front, List.findIdx?_append, hIdx, List.findIdx?_cons, if_pos hc]
  simp

/-- What `parsePath` does with the rest of the URI. -/
def readPath (out : Target) : List Char → Bool × Target
  | [] => (true, { out with path := [] })
  | '/' :: path => (true, { out with path })
  | _ => (true, out)

theorem parsePath_append : parsePath (front ++ rest) front.length out = readPath out rest := by
  cases rest with
  | nil => rw [parsePath, if_pos (by simp)]; rfl
  | cons c cs =>
    rw [parsePath, if_neg (by simp), List.getElem?_append_right le_rfl, Nat.sub_self, List.getElem?_cons_zero]
    split_ifs with hSlash
    · obtain rfl := Option.some.inj hSlash
      have hDrop : (front ++ '/' :: cs).drop (front.length + 1) = cs := by
        rw [← List.drop_drop, drop_front]
        rfl
      rw [hDrop, readPath]
    · rw [readPath]
      · nofun
      · rintro path hEq
        obtain ⟨rfl, -⟩ := List.cons.inj hEq
        exact hSlash rfl

/-- The text that is to be the port. -/
def portText (cs : List Char) : List Char := cs.takeWhile (· ≠ '/')

def readPort (out : Target) : List Char → Bool × Target
  | ':' :: cs =>
    if portText cs = [] then
      (false, out)
    else
      match stoi (portText cs) with
      | none => (false, out)
      | some port => readPath { out with port } (cs.dropWhile (· ≠ '/'))
  | rest => readPath out rest

theorem parsePort_append : parsePort (front ++ rest) front.length out = readPort out rest := by
  cases rest with
  | nil => rw [parsePort, if_pos (by simp)]; rfl
  | cons c cs =>
    rw [parsePort, if_neg (by simp), List.getElem?_append_right le_rfl, Nat.sub_self, List.getElem?_cons_zero]
    split_ifs with hColon
    · obtain rfl := Option.some.inj hColon
      -- the same string, from behind the colon
      have hFront : front ++ ':' :: cs = (front ++ [':']) ++ cs := List.append_cons front ':' cs
      have hLength : front.length + 1 = (front ++ [':']).length := by simp
      have hText : substr ((front ++ [':']) ++ cs) (front ++ [':']).length
          (findFrom ((front ++ [':']) ++ cs) (· = '/') (front ++ [':']).length) = portText cs := by
        rw [substr_findFrom, portText]
        simp only [decide_not]
      simp only [hFront, hLength, hText, readPort, List.length_eq_zero_iff]
      split_ifs with hEmpty
      · rfl
      · cases stoi (portText cs) with
        | none => rfl
        | some port =>
          have hRest : (front ++ [':']) ++ cs =
              ((front ++ [':']) ++ portText cs) ++ cs.dropWhile (· ≠ '/') := by
            rw [List.append_assoc _ (portText cs), portText, List.takeWhile_append_dropWhile]
          dsimp only
          rw [hRest, ← List.length_append, parsePath_append]
    · rw [parsePath_append, readPort]
      rintro cs' hEq
      obtain ⟨rfl, -⟩ := List.cons.inj hEq
      exact hColon rfl

/-- A host, bare or in brackets. -/
inductive Host where
  | plain (name : List Char)
  | bracketed (name : List Char)

def Host.name : Host → List Char
  | .plain name => name
  | .bracketed name => name

def Host.text : Host → List Char
  | .plain name => name
  | .bracketed name => '[' :: name ++ [']']

/-- The host ends where it seems to end. -/
def Host.Clear : Host → Prop
  | .plain name => name.head? ≠ some '[' ∧ ∀ c ∈ name, isSeparator c = false
  | .bracketed name => ']' ∉ name

/-- The host at the start of a text, and what follows it. -/
def splitHost : List Char → Option (Host × List Char)
  | [] => none
  | '[' :: cs =>
    if ']' ∈ cs then
      some (.bracketed (cs.takeWhile (· ≠ ']')), (cs.dropWhile (· ≠ ']')).tail)
    else
      none
  | rest => some (.plain (rest.takeWhile fun c => !isSeparator c), rest.dropWhile fun c => !isSeparator c)

def readHost (out : Target) (rest : List Char) : Bool × Target :=
  match splitHost rest with
  | none => (false, out)
  | some (host, rest) => readPort { out with hostname := host.name } rest

/-- What stops the name of a plain host. -/
def Host.Stops : Host → List Char → Prop
  | .plain _, rest => ∀ c ∈ rest.head?, isSeparator c = true
  | .bracketed _, _ => True

variable {host : Host}

theorem splitHost_plain (hNe : s ≠ []) (hStart : s.head? ≠ some '[') : splitHost s =
    some (.plain (s.takeWhile fun c => !isSeparator c), s.dropWhile fun c => !isSeparator c) := by
  rw [splitHost]
  · exact hNe
  · rintro cs rfl
    exact hStart rfl

theorem splitHost_bracketed (h : ']' ∉ s) :
    splitHost ('[' :: (s ++ ']' :: rest)) = some (.bracketed s, rest) := by
  have hTake : ∀ c ∈ s, decide (c ≠ ']') = true := fun c hc => decide_eq_true (ne_of_mem_of_not_mem hc h)
  rw [splitHost, if_pos (by simp), List.takeWhile_append_of_pos hTake, List.dropWhile_append_of_pos hTake]
  simp

theorem splitHost_text (h : host.Clear) (hStops : host.Stops rest) (hNe : host.text ++ rest ≠ []) :
    splitHost (host.text ++ rest) = some (host, rest) := by
  cases host with
  | bracketed name =>
    have hText : (Host.bracketed name).text ++ rest = '[' :: (name ++ ']' :: rest) := by
      simp [Host.text]
    rw [hText, splitHost_bracketed h]
  | plain name =>
    obtain ⟨hStart, hClear⟩ := h
    have hTake : ∀ c ∈ name, (!isSeparator c) = true := fun c hc => by rw [hClear c hc]; rfl
    have hStart' : (name ++ rest).head? ≠ some '[' := by
      cases name with
      | cons c cs => exact hStart
      | nil =>
        intro hOpen
        exact absurd (hStops '[' hOpen) (by decide)
    have hEnd : ∀ p : Char → Bool, (∀ c, p c = !isSeparator c) →
        rest.takeWhile p = [] ∧ rest.dropWhile p = rest := by
      intro p hp
      cases rest with
      | nil => exact ⟨rfl, rfl⟩
      | cons c cs =>
        have hc : ¬p c = true := by rw [hp, hStops c rfl]; decide
        exact ⟨List.takeWhile_cons_of_neg hc, List.dropWhile_cons_of_neg hc⟩
    obtain ⟨hNone, hAll⟩ := hEnd _ fun _ => rfl
    have hNe' : name ++ rest ≠ [] := hNe
    change splitHost (name ++ rest) = _
    rw [splitHost_plain hNe' hStart', List.takeWhile_append_of_pos hTake, List.dropWhile_append_of_pos hTake,
      hNone, hAll, List.append_nil]

theorem parseHost_append : parseHost (front ++ rest) front.length out = readHost out rest := by
  cases rest with
  | nil => rw [parseHost, if_pos (by simp)]; rfl
  | cons c cs =>
    rw [parseHost, if_neg (by simp), List.getElem?_append_right le_rfl, Nat.sub_self, List.getElem?_cons_zero]
    split_ifs with hOpen
    · obtain rfl := Option.some.inj hOpen
      have hFront : front ++ '[' :: cs = (front ++ ['[']) ++ cs := List.append_cons front '[' cs
      have hLength : front.length + 1 = (front ++ ['[']).length := by simp
      rw [hFront, hLength, readHost]
      dsimp only
      split_ifs with hEnd
      · obtain rfl : cs = [] := by simpa using hEnd
        rfl
      by_cases hClose : ']' ∈ cs
      · obtain ⟨name, tail, rfl, hName⟩ := List.eq_append_cons_of_mem hClose
        have hNot : ∀ c ∈ name, decide (c = ']') = false := fun c hc =>
          decide_eq_false (ne_of_mem_of_not_mem hc hName)
        have hSplit : splitHost ('[' :: (name ++ ']' :: tail)) = some (.bracketed name, tail) :=
          splitHost_bracketed hName
        have hBehind : (front ++ ['[']) ++ (name ++ ']' :: tail) =
            ((front ++ ['[']) ++ (name ++ [']'])) ++ tail := by simp
        have hOffset : (front ++ ['[']).length + name.length + 1 =
            ((front ++ ['[']) ++ (name ++ [']'])).length := by simp; omega
        rw [findFrom_stop _ hNot (decide_eq_true rfl), hSplit]
        dsimp only
        rw [substr, drop_front, Nat.add_sub_cancel_left, List.take_left, hBehind, hOffset, parsePort_append]
        rfl
      · have hNone : findFrom ((front ++ ['[']) ++ cs) (· = ']') (front ++ ['[']).length = none := by
          rw [findFrom, drop_front, List.findIdx?_eq_none_iff.mpr fun c hc =>
            decide_eq_false (ne_of_mem_of_not_mem hc hClose)]
          rfl
        rw [hNone, splitHost, if_neg hClose]
    · have hStart : (c :: cs).head? ≠ some '[' := hOpen
      have hRest : front ++ c :: cs = (front ++ (c :: cs).takeWhile fun c => !isSeparator c) ++
          (c :: cs).dropWhile fun c => !isSeparator c := by
        rw [List.append_assoc, List.takeWhile_append_dropWhile]
      rw [readHost, splitHost_plain (List.cons_ne_nil c cs) hStart]
      dsimp only
      rw [substr_findFrom, ← List.length_append]
      nth_rewrite 1 [hRest]
      rw [parsePort_append]
      rfl

def scheme : Bool → List Char
  | true => "wss://".toList
  | false => "ws://".toList

def defaultPort (secure : Bool) : Int := if secure then 443 else 80

/-- **`ParseURI`** reads what is behind the scheme. -/
theorem parseUri_scheme (secure : Bool) : parseUri (scheme secure ++ rest) out =
    readHost { out with port := defaultPort secure, secure } rest := by
  cases secure with
  | true =>
    have hSecure : (scheme true ++ rest).take 6 = "wss://".toList := List.take_left' rfl
    rw [parseUri]
    dsimp only
    rw [if_pos hSecure]
    exact parseHost_append
  | false =>
    have hPlain : (scheme false ++ rest).take 6 ≠ "wss://".toList := by
      intro hSame
      have hThird := congrArg (·[2]?) hSame
      cases hThird
    have hScheme : (scheme false ++ rest).take 5 = "ws://".toList := List.take_left' rfl
    rw [parseUri]
    dsimp only
    rw [if_neg hPlain, if_neg (not_not_intro hScheme)]
    exact parseHost_append

theorem scheme_of_parseUri (h : (parseUri s out).1 = true) : ∃ secure rest, s = scheme secure ++ rest := by
  rw [parseUri] at h
  dsimp only at h
  split_ifs at h with hSecure hPlain
  · refine ⟨true, s.drop 6, ?_⟩
    calc s = s.take 6 ++ s.drop 6 := (List.take_append_drop 6 s).symm
      _ = scheme true ++ s.drop 6 := congrArg (· ++ s.drop 6) hSecure
  · refine ⟨false, s.drop 5, ?_⟩
    calc s = s.take 5 ++ s.drop 5 := (List.take_append_drop 5 s).symm
      _ = scheme false ++ s.drop 5 := congrArg (· ++ s.drop 5) (not_not.mp hPlain)

/-! ### Ports -/

theorem not_isSpace_of_isDigit (h : c.isDigit = true) : isSpace c = false ∧ c ≠ '-' ∧ c ≠ '+' ∧ c ≠ '/' := by
  rw [Char.isDigit, Bool.and_eq_true, decide_eq_true_eq, decide_eq_true_eq] at h
  obtain ⟨hLow, hHigh⟩ := h
  have hLow' : 48 ≤ c.toNat := hLow
  have hNe : ∀ d : Char, d.toNat < 48 → c ≠ d := by
    rintro d hd rfl
    omega
  refine ⟨?_, hNe '-' (by decide), hNe '+' (by decide), hNe '/' (by decide)⟩
  have hHigh : '\r'.toNat = 13 := rfl
  rw [isSpace, Bool.or_eq_false_iff, Bool.and_eq_false_iff]
  exact ⟨decide_eq_false (hNe ' ' (by decide)), .inr (decide_eq_false (by omega))⟩

/-- A text of digits is read as its number, if that is an `int`. -/
theorem stoi_digits (hNe : ds ≠ []) (hDigits : ∀ c ∈ ds, c.isDigit = true) :
    stoi ds = if Nat.ofDigitChars 10 ds 0 < 2 ^ 31 then some (Nat.ofDigitChars 10 ds 0 : Int) else none := by
  cases ds with
  | nil => exact absurd rfl hNe
  | cons c cs =>
    obtain ⟨hSpace, hMinus, hPlus, -⟩ := not_isSpace_of_isDigit (hDigits c List.mem_cons_self)
    have hSigned : signed (c :: cs) = (1, c :: cs) := by
      rw [signed]
      · rintro ds hEq
        exact hMinus (List.cons.inj hEq).1
      · rintro ds hEq
        exact hPlus (List.cons.inj hEq).1
    rw [stoi, List.dropWhile_cons_of_neg (by rw [hSpace]; exact Bool.false_ne_true), hSigned]
    dsimp only
    rw [List.takeWhile_eq_self_iff.mpr hDigits, Int.one_mul]
    refine if_congr ?_ rfl rfl
    constructor
    · rintro ⟨-, -, hLess⟩
      exact_mod_cast hLess
    · intro hLess
      exact ⟨hNe, by omega, by exact_mod_cast hLess⟩

/-- The text of a port goes to the next slash. -/
theorem portText_append (hDigits : ∀ c ∈ ds, c.isDigit = true) (hRest : ∀ c ∈ rest.head?, c = '/') :
    portText (ds ++ rest) = ds ∧ (ds ++ rest).dropWhile (· ≠ '/') = rest := by
  have hTake : ∀ c ∈ ds, decide (c ≠ '/') = true := fun c hc =>
    decide_eq_true (not_isSpace_of_isDigit (hDigits c hc)).2.2.2
  rw [portText, List.takeWhile_append_of_pos hTake, List.dropWhile_append_of_pos hTake]
  cases rest with
  | nil => exact ⟨List.append_nil ds, rfl⟩
  | cons c cs =>
    obtain rfl := hRest c rfl
    exact ⟨List.append_nil ds, rfl⟩

end

/-! ### The URIs that there are -/

/-- The parts of a URI. -/
structure Uri where
  secure : Bool
  host : Host
  port : Option {n : Nat // n < 2 ^ 31}
  path : Option (List Char)
  clear : host.Clear
  named : host.text ≠ []

namespace Uri

def portPart : Option {n : Nat // n < 2 ^ 31} → List Char
  | none => []
  | some n => ':' :: Nat.toDigits 10 n

def pathPart : Option (List Char) → List Char
  | none => []
  | some path => '/' :: path

def text (u : Uri) : List Char :=
  scheme u.secure ++ (u.host.text ++ (portPart u.port ++ pathPart u.path))

def target (u : Uri) : Target where
  secure := u.secure
  hostname := u.host.name
  port := u.port.elim (defaultPort u.secure) fun n => (n.val : Int)
  path := u.path.getD []

end Uri

/-- A port or a path stops a name. -/
theorem stops_parts (host : Host) (port : Option {n : Nat // n < 2 ^ 31}) (path : Option (List Char)) :
    host.Stops (Uri.portPart port ++ Uri.pathPart path) := by
  cases host with
  | bracketed name => trivial
  | plain name =>
    rintro c hc
    rcases port with _ | n
    · rcases path with _ | path
      · cases hc
      · obtain rfl := Option.some.inj hc
        rfl
    · obtain rfl := Option.some.inj hc
      rfl

theorem readPath_pathPart (out : Target) (path : Option (List Char)) :
    readPath out (Uri.pathPart path) = (true, { out with path := path.getD [] }) := by
  cases path <;> rfl

theorem readPort_parts (out : Target) (port : Option {n : Nat // n < 2 ^ 31}) (path : Option (List Char)) :
    readPort out (Uri.portPart port ++ Uri.pathPart path) =
      (true, { out with port := port.elim out.port fun n => (n.val : Int), path := path.getD [] }) := by
  cases port with
  | none => cases path <;> rfl
  | some n =>
    obtain ⟨n, hn⟩ := n
    have hDigits : ∀ c ∈ Nat.toDigits 10 n, c.isDigit = true := fun c hc =>
      Nat.isDigit_of_mem_toDigits (by decide) (by decide) hc
    have hNe : Nat.toDigits 10 n ≠ [] := Nat.toDigits_ne_nil
    have hSlash : ∀ c ∈ (Uri.pathPart path).head?, c = '/' := by
      cases path with
      | none => nofun
      | some path => exact fun c hc => (Option.some.inj hc).symm
    obtain ⟨hText, hRest⟩ := portText_append hDigits hSlash
    have hStoi := stoi_digits hNe hDigits
    rw [Nat.ofDigitChars_ten_toDigits, if_pos hn] at hStoi
    rw [Uri.portPart, List.cons_append, readPort, hText, if_neg hNe, hStoi, hRest]
    dsimp only
    rw [readPath_pathPart]
    rfl

/-- **URIs parse back to their parts.** -/
theorem parseUri_text (u : Uri) (out : Target) : parseUri u.text out = (true, u.target) := by
  rw [Uri.text, parseUri_scheme, readHost,
    splitHost_text u.clear (stops_parts u.host u.port u.path)
      (List.append_ne_nil_of_left_ne_nil u.named _)]
  dsimp only
  rw [readPort_parts]
  rfl

def feedUri : Uri where
  secure := true
  host := .bracketed "::1".toList
  port := some ⟨8443, by decide⟩
  path := some "feed/quotes".toList
  clear := by
    unfold Host.Clear
    decide
  named := by decide

theorem parseUri_text_feed : parseUri "wss://[::1]:8443/feed/quotes".toList ⟨false, [], 0, []⟩ =
    (true, ⟨true, "::1".toList, 8443, "feed/quotes".toList⟩) :=
  parseUri_text feedUri ⟨false, [], 0, []⟩

end DemoCode.WebSocket

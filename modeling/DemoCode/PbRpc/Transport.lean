import Mathlib.Data.List.TakeWhile
import Mathlib.Tactic.Common

/-! `pb_rpc_server.cpp` and `pb_rpc_client.cpp`: the bytes of a request and of its response on their way to
`ParseFromString`.  A read past the end of a buffer is `none`, and so is a `read` that never returns. -/

namespace DemoCode.PbRpc

abbrev Bytes := List UInt8

/-- What one `read(connfd, buf, 1024)` gets. -/
structure Chunk where
  bytes : Bytes
  pos : 0 < bytes.length
  le : bytes.length ≤ 1024

/-- The end of a `read` that gets nothing: the peer has closed the connection, or the call fails, with `EAGAIN`
if it would have to wait. -/
inductive Ending where
  | closed
  | failed
  deriving DecidableEq, Repr

def Ending.ret : Ending → Int
  | .closed => 0
  | .failed => -1

/-- A `buf` of zeros behind a `read` into it. -/
def buffer (bytes : Bytes) : Bytes := bytes ++ List.replicate (1024 - bytes.length) 0

/-- `std::string(buf)`. -/
def cString (buf : Bytes) : Option Bytes := if 0 ∈ buf then some (buf.takeWhile (· ≠ 0)) else none

/-! ### The server -/

/-- The reads of one call of `RecvData`. -/
structure Reads where
  chunks : List Chunk
  ending : Ending

def recvLoop (ending : Ending) : List Chunk → Bytes → Option (Int × Bytes)
  | [], msg => some (ending.ret, msg)
  | c :: chunks, msg => do
    let text ← cString (buffer c.bytes)
    recvLoop ending chunks (msg ++ text)

def recvData (r : Reads) : Option (Int × Bytes) := recvLoop r.ending r.chunks []

/-- What `Start` hands to `ParseFromString`, for the events of one connection. -/
def start : List Reads → Option (List Bytes)
  | [] => some []
  | r :: events => do
    let (ret, msg) ← recvData r
    if ret = 0 then
      some []
    else
      let handed ← start events
      some (msg :: handed)

/-- The messages of `echo_service.proto` on the wire: `SerializeToString` of one with its `msg`, and the `msg`
of one behind `ParseFromString`. -/
structure Codec where
  request : Bytes → Bytes
  readRequest : Bytes → Bytes
  response : Bytes → Bytes
  readResponse : Bytes → Bytes

/-- `Echo` and `SendBack`. -/
def Codec.echo (codec : Codec) (handed : Bytes) : Bytes := codec.response (codec.readRequest handed)

/-- What the server sends on a connection. -/
def serve (codec : Codec) (events : List Reads) : Option Bytes :=
  (start events).map fun handed => handed.flatMap codec.echo

/-! ### The client -/

/-- What there is for the client to read; a connection without an ending stays open. -/
structure Incoming where
  chunks : List Chunk
  ending : Option Ending

/-- What `CallMethod` hands to `ParseFromString`. -/
def receive : Incoming → Option Bytes
  | ⟨c :: _, _⟩ => cString (buffer c.bytes)
  | ⟨[], some _⟩ => cString (buffer [])
  | ⟨[], none⟩ => none

/-- The `msg` of the response after `CallMethod`. -/
def callMethod (codec : Codec) (incoming : Incoming) : Option Bytes :=
  (receive incoming).map codec.readResponse

/-! ### What was sent -/

/-- The bytes of some reads. -/
def sent (chunks : List Chunk) : Bytes := chunks.flatMap Chunk.bytes

/-- The bytes that come to the server, up to the end of the connection. -/
def received : List Reads → Bytes
  | [] => []
  | ⟨chunks, .closed⟩ :: _ => sent chunks
  | ⟨chunks, .failed⟩ :: events => sent chunks ++ received events

/-- Bytes that come out of the buffer again. -/
def Chunk.Plain (c : Chunk) : Prop := 0 ∉ c.bytes ∧ c.bytes.length < 1024

/-- Nothing comes but the end of the connection. -/
def Quiet : List Reads → Prop
  | [] => True
  | r :: _ => r.ending = .closed ∧ r.chunks = []

/-- All the bytes come during the first call of `RecvData`, while the client is there. -/
def InOneCall : List Reads → Prop
  | [] => False
  | r :: events => r.ending = .failed ∧ (∀ c ∈ r.chunks, c.Plain) ∧ Quiet events

/-- All the bytes come with the first `read`. -/
def InOneRead : Incoming → Prop
  | ⟨[], ending⟩ => ending ≠ none
  | ⟨c :: chunks, _⟩ => c.Plain ∧ chunks = []

/-- Parsing gives back what was serialised. -/
def Codec.RoundTrips (codec : Codec) (msg : Bytes) : Prop :=
  codec.readRequest (codec.request msg) = msg ∧ codec.readResponse (codec.response msg) = msg

section

variable {c : Chunk} {chunks : List Chunk} {ending : Ending} {msg text : Bytes} {ret : Int}
  {events : List Reads} {r : Reads}

theorem sent_cons : sent (c :: chunks) = c.bytes ++ sent chunks := List.flatMap_cons

theorem sent_eq_nil : sent chunks = [] ↔ chunks = [] := by
  cases chunks with
  | nil => exact iff_of_true rfl rfl
  | cons c chunks =>
    have hPos := c.pos
    rw [sent_cons, List.append_eq_nil_iff]
    constructor
    · rintro ⟨hNil, -⟩
      rw [hNil] at hPos
      exact absurd hPos (lt_irrefl 0)
    · nofun

theorem cString_buffer {bytes : Bytes} (hZero : 0 ∉ bytes) (hLess : bytes.length < 1024) :
    cString (buffer bytes) = some bytes := by
  obtain ⟨n, hn⟩ : ∃ n, 1024 - bytes.length = n + 1 := ⟨1023 - bytes.length, by omega⟩
  rw [buffer, hn, List.replicate_succ, cString, if_pos (by simp),
    List.takeWhile_append_of_pos fun b hb => by simpa using ne_of_mem_of_not_mem hb hZero]
  simp

theorem Chunk.Plain.cString (h : c.Plain) : cString (buffer c.bytes) = some c.bytes :=
  cString_buffer h.1 h.2

/-- A text that is not shorter than what was read is what was read. -/
theorem cString_cases (h : cString (buffer c.bytes) = some text) :
    text.length < c.bytes.length ∨ c.Plain ∧ text = c.bytes := by
  by_cases hPlain : c.Plain
  · rw [hPlain.cString] at h
    exact .inr ⟨hPlain, (Option.some.inj h).symm⟩
  refine .inl ?_
  rw [cString] at h
  split_ifs at h with hMem
  cases h
  have hZero : 0 ∈ c.bytes := by
    by_contra hNot
    have hLess : c.bytes.length < 1024 := by
      rcases List.mem_append.mp hMem with hIn | hIn
      · exact absurd hIn hNot
      · have hSome := (List.mem_replicate.mp hIn).1
        omega
    exact hPlain ⟨hNot, hLess⟩
  obtain ⟨front, back, hSplit, hFront⟩ := List.eq_append_cons_of_mem hZero
  rw [buffer, hSplit, List.append_assoc,
    List.takeWhile_append_of_pos fun b hb => by simpa using ne_of_mem_of_not_mem hb hFront]
  simp

theorem recvLoop_plain (h : ∀ c ∈ chunks, c.Plain) :
    recvLoop ending chunks msg = some (ending.ret, msg ++ sent chunks) := by
  induction chunks generalizing msg with
  | nil => simp [recvLoop, sent]
  | cons c chunks ih =>
    obtain ⟨hPlain, hRest⟩ := List.forall_mem_cons.mp h
    rw [recvLoop, hPlain.cString, Option.bind_eq_bind, Option.bind_some, ih hRest, sent_cons,
      List.append_assoc]

/-- **Step lemma** for the reads of one call, one read first. -/
theorem recvLoop_cases (h : recvLoop ending chunks msg = some (ret, text)) : ret = ending.ret ∧
    (text.length < (msg ++ sent chunks).length ∨ (∀ c ∈ chunks, c.Plain) ∧ text = msg ++ sent chunks) := by
  induction chunks generalizing msg with
  | nil =>
    cases h
    exact ⟨rfl, .inr ⟨nofun, (List.append_nil _).symm⟩⟩
  | cons c chunks ih =>
    rw [recvLoop, Option.bind_eq_bind, Option.bind_eq_some_iff] at h
    obtain ⟨front, hFront, hRest⟩ := h
    obtain ⟨hRet, hText⟩ := ih hRest
    refine ⟨hRet, ?_⟩
    have hCases := cString_cases hFront
    simp only [sent_cons, List.length_append] at hText ⊢
    rcases hText with hShort | ⟨hPlain, rfl⟩
    · left
      rcases hCases with hLess | ⟨-, rfl⟩ <;> omega
    · rcases hCases with hLess | ⟨hHead, rfl⟩
      · left
        simp only [List.length_append]
        omega
      · exact .inr ⟨List.forall_mem_cons.mpr ⟨hHead, hPlain⟩, List.append_assoc _ _ _⟩

theorem start_quiet (h : Quiet events) : start events = some [] ∧ received events = [] := by
  cases events with
  | nil => exact ⟨rfl, rfl⟩
  | cons r events =>
    obtain ⟨chunks, ending⟩ := r
    obtain ⟨rfl, rfl⟩ := h
    exact ⟨rfl, rfl⟩

/-- Without bytes and without a call of `ParseFromString` there is nothing, or the end. -/
theorem quiet_of_start (h : start events = some []) (hNone : received events = []) : Quiet events := by
  cases events with
  | nil => trivial
  | cons r events =>
    obtain ⟨chunks, ending⟩ := r
    cases ending with
    | closed => exact ⟨rfl, sent_eq_nil.mp hNone⟩
    | failed =>
      rw [start, Option.bind_eq_bind, Option.bind_eq_some_iff] at h
      obtain ⟨⟨ret, msg⟩, hRecv, hRest⟩ := h
      obtain ⟨rfl, -⟩ := recvLoop_cases hRecv
      simp [Ending.ret, Option.bind_eq_some_iff] at hRest

theorem start_iff : start events = some [received events] ↔ InOneCall events := by
  constructor
  · intro h
    cases events with
    | nil => simp [start] at h
    | cons r events =>
      obtain ⟨chunks, ending⟩ := r
      rw [start, Option.bind_eq_bind, Option.bind_eq_some_iff] at h
      obtain ⟨⟨ret, msg⟩, hRecv, hRest⟩ := h
      obtain ⟨rfl, hCases⟩ := recvLoop_cases hRecv
      cases ending with
      | closed => simp [Ending.ret] at hRest
      | failed =>
        simp only [Ending.ret, Int.reduceNeg, reduceCtorEq, if_false, Option.bind_eq_bind,
          Option.bind_eq_some_iff, Option.some.injEq, List.cons.injEq] at hRest
        obtain ⟨handed, hMore, rfl, rfl⟩ := hRest
        -- by lengths there is nothing behind the first call
        simp only [received, List.nil_append, List.length_append] at hCases
        rcases hCases with hLess | ⟨hPlain, hSame⟩
        · omega
        · exact ⟨rfl, hPlain, quiet_of_start hMore (List.append_right_eq_self.mp hSame)⟩
  · intro h
    cases events with
    | nil => exact h.elim
    | cons r events =>
      obtain ⟨chunks, ending⟩ := r
      obtain ⟨rfl, hPlain, hQuiet⟩ := h
      obtain ⟨hStart, hReceived⟩ := start_quiet hQuiet
      have hRecv : recvData ⟨chunks, .failed⟩ = some (-1, sent chunks) := recvLoop_plain hPlain
      rw [start, hRecv, received, hReceived, List.append_nil, Option.bind_eq_bind, Option.bind_some, hStart]
      rfl

theorem receive_iff {incoming : Incoming} :
    receive incoming = some (sent incoming.chunks) ↔ InOneRead incoming := by
  rcases incoming with ⟨_ | ⟨c, chunks⟩, ending⟩
  · cases ending with
    | none => simp [receive, InOneRead]
    | some ending => exact iff_of_true (cString_buffer (by simp) (by decide)) (by simp [InOneRead])
  · constructor
    · intro h
      have hCases := cString_cases h
      rw [sent_cons, List.length_append] at hCases
      rcases hCases with hLess | ⟨hPlain, hSame⟩
      · omega
      · exact ⟨hPlain, sent_eq_nil.mp (List.append_right_eq_self.mp hSame)⟩
    · rintro ⟨hPlain, rfl⟩
      exact hPlain.cString.trans (by simp [sent])

end

/-- **The transport**: each side hands over the bytes that were sent exactly if they all come at once, in a
read that does not fill the buffer and without a byte of zero; and then `Echo` returns the message. -/
theorem transport_exact_iff (events : List Reads) (incoming : Incoming) :
    (start events = some [received events] ↔ InOneCall events) ∧
      (receive incoming = some (sent incoming.chunks) ↔ InOneRead incoming) ∧
      ∀ (codec : Codec) (msg : Bytes), codec.RoundTrips msg → received events = codec.request msg →
        serve codec events = some (sent incoming.chunks) → InOneCall events → InOneRead incoming →
        callMethod codec incoming = some msg := by
  refine ⟨start_iff, receive_iff, ?_⟩
  rintro codec msg ⟨hRequest, hResponse⟩ hSent hServe hCall hRead
  rw [serve, start_iff.mpr hCall, hSent, Option.map_some, List.flatMap_singleton, Codec.echo, hRequest,
    Option.some.injEq] at hServe
  rw [callMethod, receive_iff.mpr hRead, ← hServe, Option.map_some, hResponse]

/-- The wire format of a short `msg`: the tag, the length and the bytes, and nothing for an empty one. -/
def short : Codec where
  request msg := if msg = [] then [] else 10 :: UInt8.ofNat msg.length :: msg
  readRequest bytes := bytes.drop 2
  response msg := if msg = [] then [] else 18 :: UInt8.ofNat msg.length :: msg
  readResponse bytes := bytes.drop 2

/-- An `Hi` that comes in two reads, and its response in one. -/
theorem transport_exact_hi : callMethod short ⟨[⟨[18, 2, 72, 105], by decide, by decide⟩], none⟩ =
    some [72, 105] :=
  (transport_exact_iff
    [⟨[⟨[10, 2, 72], by decide, by decide⟩, ⟨[105], by decide, by decide⟩], .failed⟩, ⟨[], .closed⟩] _).2.2
    short [72, 105] ⟨by decide, by decide⟩ (by decide) (by decide)
    ⟨rfl, by simp [Chunk.Plain], rfl, rfl⟩ ⟨by simp [Chunk.Plain], rfl⟩

/-- The request whose `msg` is one byte of zero. -/
theorem not_transport_exact : ¬∀ msg events, received events = short.request msg →
    start events = some [short.request msg] := by
  intro h
  have hStart := h [0] [⟨[⟨[10, 1, 0], by decide, by decide⟩], .failed⟩] (by decide)
  exact absurd hStart (by decide)

end DemoCode.PbRpc

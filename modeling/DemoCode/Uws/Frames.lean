import DemoCode.Lib.Decoder
import Mathlib.Data.List.GetD
import DemoCode.Uws.Fragments
import DemoCode.Uws.Protocol

/-! What a connection makes of a stream that is there as a whole: a decoder of frames, without the
spill, the parts of a payload and the places in the buffer.  Its state is a settled connection. -/

namespace DemoCode.Uws

open WebSocket

variable {σ : Type}

/-- What the front of the stream is. -/
inductive Front (σ : Type) where
  | wait
  | refuse
  | frame (w : WebSocket σ) (header payload : ℕ)

def Front.map (f : WebSocket σ → WebSocket σ) : Front σ → Front σ
  | .wait => .wait
  | .refuse => .refuse
  | .frame w header payload => .frame (f w) header payload

/-- The key in front of a payload. -/
def frameKey (b : List UInt8) (header : ℕ) : List UInt8 := (b.drop (header - 4)).take 4

def unmasked (isServer : Bool) (key data : List UInt8) : List UInt8 :=
  if isServer then Masking.mask key data else data

/-- The payload behind the header, or what is there of it, unmasked. -/
def content (isServer : Bool) (b : List UInt8) (header payload : ℕ) : List UInt8 :=
  unmasked isServer (frameKey b header) ((b.drop header).take payload)

/-- A frame is taken off the stack when it is the last one of its message. -/
def popped (fin : Bool) (w : WebSocket σ) : WebSocket σ :=
  if fin then { w with opStack := w.opStack.tail } else w

section

variable (g : Group σ) (isServer : Bool)

def front (w : WebSocket σ) (b : List UInt8) : Front σ :=
  if b.length < shortMessageHeader isServer then .wait
  else
    match checkHead (b.getD 0 0) (b.getD 1 0) w with
    | none => .refuse
    | some w =>
      let header := headerLength isServer (b.getD 1 0)
      if b.length < header then .wait
      else
        let payload := statedLength b (b.getD 1 0)
        match startMessage g (b.getD 0 0) payload w with
        | none => .refuse
        | some w => .frame w header payload

/-- What the frame on top of the stack does. -/
def complete (w : WebSocket σ) (data : List UInt8) (fin : Bool) : WebSocket σ :=
  popped fin (w.handleFragment g data 0 (w.opStack.headD 0) fin).2

def nextFrame (w : WebSocket σ) (b : List UInt8) : Verdict (WebSocket σ) Empty :=
  if w.ended then .more
  else
    match front g isServer w b with
    | .wait => .more
    | .refuse => .item (shortMessageHeader isServer) (w.forceClose g).settle []
    | .frame w header payload =>
      if header + payload ≤ b.length then
        .item (header + payload)
          (complete g w (content isServer b header payload) (isFin (b.getD 0 0))).settle []
      else .more

end

variable {g : Group σ} {isServer : Bool} {w x : WebSocket σ} {b c : List UInt8} {b0 b1 : UInt8}
  {header payload n : ℕ}

@[simp] theorem length_unmasked (isServer : Bool) (key data : List UInt8) :
    (unmasked isServer key data).length = data.length := by
  cases isServer <;> simp [unmasked]

theorem unmasked_append {key : List UInt8} (h : isServer = true → key.length = 4) :
    unmasked isServer key (b ++ c) =
      unmasked isServer key b ++ unmasked isServer (key.rotate b.length) c := by
  cases isServer with
  | false => rfl
  | true => exact Masking.mask_append (h rfl) b c

/-! ### Headers -/

theorem short_le_headerLength (isServer : Bool) (b1 : UInt8) :
    shortMessageHeader isServer ≤ headerLength isServer b1 := by
  unfold headerLength
  cases isServer <;> simp [shortMessageHeader, mediumMessageHeader, longMessageHeader] <;> grind

theorem two_le_short (isServer : Bool) : 2 ≤ shortMessageHeader isServer := by
  cases isServer <;> decide

theorem six_le_headerLength (b1 : UInt8) : 6 ≤ headerLength true b1 :=
  short_le_headerLength true b1

theorem headerLength_le_long (isServer : Bool) (b1 : UInt8) :
    headerLength isServer b1 ≤ longMessageHeader isServer := by
  unfold headerLength
  cases isServer <;> simp [shortMessageHeader, mediumMessageHeader, longMessageHeader] <;> grind

theorem take_drop_append {i j : ℕ} (h : i + j ≤ b.length) (c : List UInt8) :
    ((b ++ c).drop i).take j = (b.drop i).take j := by
  rw [List.drop_append_of_le_length (by omega),
    List.take_append_of_le_length (by rw [List.length_drop]; omega)]

theorem statedLength_append (h : headerLength isServer b1 ≤ b.length) (c : List UInt8) :
    statedLength (b ++ c) b1 = statedLength b b1 := by
  unfold statedLength
  unfold headerLength at h
  split
  · rfl
  · rename_i hShort
    rw [if_neg hShort] at h
    split
    · rename_i hMedium
      rw [if_pos hMedium] at h
      have hLe : 4 ≤ b.length := le_trans (by cases isServer <;> decide) h
      rw [take_drop_append (by omega)]
    · rename_i hMedium
      rw [if_neg hMedium] at h
      have hLe : 10 ≤ b.length := le_trans (by cases isServer <;> decide) h
      rw [take_drop_append (by omega)]

/-! ### The front of a longer stream -/

theorem front_append (h : front g isServer w b ≠ .wait) (c : List UInt8) :
    front g isServer w (b ++ c) = front g isServer w b := by
  have hTwo := two_le_short isServer
  by_cases hShort : b.length < shortMessageHeader isServer
  · exact absurd (by simp [front, hShort]) h
  have hLong : ¬(b ++ c).length < shortMessageHeader isServer := by
    rw [List.length_append]
    omega
  simp only [front, hShort, hLong, if_false, List.getD_append b c 0 0 (by omega),
    List.getD_append b c 0 1 (by omega)] at h ⊢
  cases hCheck : checkHead (b.getD 0 0) (b.getD 1 0) w with
  | none => rfl
  | some x =>
    simp only [hCheck] at h ⊢
    by_cases hHeader : b.length < headerLength isServer (b.getD 1 0)
    · exact absurd (if_pos hHeader) h
    · have hHeader' : ¬(b ++ c).length < headerLength isServer (b.getD 1 0) := by
        rw [List.length_append]
        omega
      rw [if_neg hHeader, if_neg hHeader', statedLength_append (not_lt.mp hHeader)]

theorem content_append (hHeader : header + payload ≤ b.length) (h : isServer = true → 4 ≤ header)
    (c : List UInt8) :
    content isServer (b ++ c) header payload = content isServer b header payload := by
  rw [content, content, take_drop_append hHeader]
  cases isServer with
  | false => rfl
  | true =>
    have := h rfl
    rw [frameKey, frameKey, take_drop_append (by omega)]

/-- What a frame at the front says of the stream. -/
theorem of_front_frame (h : front g isServer w b = .frame x header payload) :
    shortMessageHeader isServer ≤ b.length ∧ header = headerLength isServer (b.getD 1 0) ∧
      header ≤ b.length ∧ payload = statedLength b (b.getD 1 0) ∧
      ∃ v, checkHead (b.getD 0 0) (b.getD 1 0) w = some v ∧
        startMessage g (b.getD 0 0) payload v = some x := by
  unfold front at h
  split at h
  · cases h
  · split at h
    · cases h
    · rename_i v hCheck
      simp only at h
      split at h
      · cases h
      · split at h
        · cases h
        · rename_i y hStart
          cases h
          exact ⟨by omega, rfl, by omega, rfl, v, hCheck, hStart⟩

theorem header_pos (h : front g isServer w b = .frame x header payload) : 0 < header := by
  obtain ⟨-, rfl, -, -, -⟩ := of_front_frame h
  have h₁ := two_le_short isServer
  have h₂ := short_le_headerLength isServer (b.getD 1 0)
  omega

theorem four_le_header (h : front g isServer w b = .frame x header payload) (hs : isServer = true) :
    4 ≤ header := by
  obtain ⟨-, rfl, -, -, -⟩ := of_front_frame h
  have := six_le_headerLength (b.getD 1 0)
  subst hs
  omega

theorem nextFrame_item {o : List Empty} (h : nextFrame g isServer w b = .item n x o) :
    w.ended = false ∧
    ((front g isServer w b = .refuse ∧ n = shortMessageHeader isServer ∧ x = (w.forceClose g).settle) ∨
      ∃ v header payload, front g isServer w b = .frame v header payload ∧
        header + payload ≤ b.length ∧ n = header + payload ∧
        x = (complete g v (content isServer b header payload) (isFin (b.getD 0 0))).settle) := by
  unfold nextFrame at h
  split at h
  · cases h
  · rename_i hOpen
    refine ⟨by simpa using hOpen, ?_⟩
    split at h
    · cases h
    · cases h
      exact Or.inl ⟨by assumption, rfl, rfl⟩
    · rename_i v header payload hFront
      split at h
      · cases h
        exact Or.inr ⟨v, header, payload, hFront, by assumption, rfl, rfl⟩
      · cases h

theorem refuse_short (h : front g isServer w b = .refuse) :
    shortMessageHeader isServer ≤ b.length := by
  unfold front at h
  split at h
  · cases h
  · omega

theorem nextFrame_append (h : nextFrame g isServer w b ≠ .more) (c : List UInt8) :
    nextFrame g isServer w (b ++ c) = nextFrame g isServer w b := by
  unfold nextFrame at h ⊢
  by_cases hOpen : w.ended
  · exact absurd (if_pos hOpen) h
  rw [if_neg hOpen] at h ⊢
  rw [if_neg hOpen]
  cases hFront : front g isServer w b with
  | wait => simp [hFront] at h
  | refuse => rw [front_append (by simp [hFront]), hFront]
  | frame v header payload =>
    rw [front_append (by simp [hFront]), hFront]
    simp only [hFront] at h ⊢
    by_cases hLe : header + payload ≤ b.length
    · have hLe' : header + payload ≤ (b ++ c).length := by
        rw [List.length_append]
        omega
      have hShort := (of_front_frame hFront).1
      have hTwo := two_le_short isServer
      rw [if_pos hLe, if_pos hLe', List.getD_append b c 0 0 (by omega), content_append hLe (four_le_header hFront)]
    · exact absurd (if_neg hLe) h

variable (g isServer) in
/-- The decoder of the frames of a stream. -/
def frames : Decoder (WebSocket σ) UInt8 Empty where
  next := nextFrame g isServer
  size_pos {w b n x o} h := by
    obtain ⟨-, ⟨-, rfl, -⟩ | ⟨v, header, payload, hFront, -, rfl, -⟩⟩ := nextFrame_item h
    · have := two_le_short isServer
      omega
    · have := header_pos hFront
      omega
  size_le {w b n x o} h := by
    obtain ⟨-, ⟨hFront, rfl, -⟩ | ⟨v, header, payload, -, hLe, rfl, -⟩⟩ := nextFrame_item h
    · exact refuse_short hFront
    · exact hLe
  stable c h := nextFrame_append h c

end DemoCode.Uws

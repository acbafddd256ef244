import DemoCode.Lib.Masking

/-! The receive buffer, and the loops of `WebSocketProtocol.h` that unmask in it: four bytes a pass,
so that they go up to four bytes past the end of what they are to unmask.  An access outside of the
buffer has no result. -/

namespace DemoCode.Uws

open Masking

/-- The `n` bytes at `src`. -/
def readAt (mem : List UInt8) (src n : ℕ) : Option (List UInt8) :=
  if src + n ≤ mem.length then some ((mem.drop src).take n) else none

/-- `memcpy` to `dst`. -/
def writeAt (mem : List UInt8) (dst : ℕ) (bytes : List UInt8) : Option (List UInt8) :=
  if dst + bytes.length ≤ mem.length then
    some (mem.take dst ++ bytes ++ mem.drop (dst + bytes.length))
  else none

/-- `*dst = *src ^ m` -/
def xorByte (mem : List UInt8) (dst src : ℕ) (m : UInt8) : Option (List UInt8) := do
  let b ← mem[src]?
  if dst < mem.length then some (mem.set dst (b ^^^ m)) else none

/-- One pass of the loops. -/
def xorFour (mask : List UInt8) (mem : List UInt8) (dst src : ℕ) : Option (List UInt8) := do
  let mem ← xorByte mem dst src (mask.getD 0 0)
  let mem ← xorByte mem (dst + 1) (src + 1) (mask.getD 1 0)
  let mem ← xorByte mem (dst + 2) (src + 2) (mask.getD 2 0)
  xorByte mem (dst + 3) (src + 3) (mask.getD 3 0)

def xorBlocks (mask : List UInt8) : ℕ → List UInt8 → ℕ → ℕ → Option (List UInt8)
  | 0, mem, _, _ => some mem
  | n + 1, mem, dst, src => do
    let mem ← xorFour mask mem dst src
    xorBlocks mask n mem (dst + 4) (src + 4)

def unmaskImprecise (mem : List UInt8) (dst src : ℕ) (mask : List UInt8) (length : ℕ) :
    Option (List UInt8) :=
  xorBlocks mask (length / 4 + 1) mem dst src

def unmaskImpreciseCopyMask (mem : List UInt8) (dst src maskPtr length : ℕ) :
    Option (List UInt8) := do
  let mask ← readAt mem maskPtr 4
  unmaskImprecise mem dst src mask length

def rotateMask (offset : ℕ) (mask : List UInt8) : List UInt8 :=
  (((mask.set ((0 + offset) % 4) (mask.getD 0 0)).set ((1 + offset) % 4) (mask.getD 1 0)).set
    ((2 + offset) % 4) (mask.getD 2 0)).set ((3 + offset) % 4) (mask.getD 3 0)

/-- The passes while `data < stop`. -/
def unmaskInplace (mem : List UInt8) (data stop : ℕ) (mask : List UInt8) : Option (List UInt8) :=
  xorBlocks mask ((stop - data + 3) / 4) mem data data

/-- `src[i] ^= mask[i]` for the first `s` bytes. -/
def xorRest (mask mem : List UInt8) (src : ℕ) : ℕ → Option (List UInt8)
  | 0 => some mem
  | s + 1 => do
    let mem ← xorRest mask mem src s
    xorByte mem (src + s) (src + s) (mask.getD s 0)

/-- The end of a frame is unmasked to the byte. -/
def unmaskEnd (mem : List UInt8) (src : ℕ) (mask : List UInt8) (remainingBytes : ℕ) :
    Option (List UInt8) := do
  let n := remainingBytes / 4
  let mem ← unmaskInplace mem src (src + n * 4) mask
  xorRest mask mem (src + n * 4) (remainingBytes % 4)

/-! ### What the loops do -/

variable (pre gap data rest : List UInt8) {mask : List UInt8}

theorem readAt_eq {n src : ℕ} (hSrc : src = pre.length) (hn : n = data.length) :
    readAt (pre ++ (data ++ rest)) src n = some data := by
  subst hSrc hn
  rw [readAt, if_pos (by simp only [List.length_append]; omega), List.drop_left, List.take_left]

theorem writeAt_eq {n : ℕ} (hn : pre.length = n) (hLen : gap.length = data.length) :
    writeAt (pre ++ (gap ++ rest)) n data = some (pre ++ (data ++ rest)) := by
  subst hn
  rw [writeAt, if_pos (by simp only [List.length_append]; omega), List.take_left, ← List.append_assoc,
    ← List.append_assoc, ← hLen, ← List.length_append, List.drop_left]

/-- A byte that is moved down over the gap. -/
theorem xorByte_eq {dst src : ℕ} {d : UInt8} (m : UInt8) (hDst : dst = pre.length)
    (hSrc : src = pre.length + gap.length) :
    xorByte (pre ++ (gap ++ d :: rest)) dst src m =
      some ((pre ++ [d ^^^ m]) ++ ((gap ++ [d]).tail ++ rest)) := by
  subst hDst hSrc
  have hRead : (pre ++ (gap ++ d :: rest))[pre.length + gap.length]? = some d := by
    rw [List.getElem?_append_right (by omega), Nat.add_sub_cancel_left,
      List.getElem?_append_right le_rfl, Nat.sub_self, List.getElem?_cons_zero]
  rw [xorByte, hRead]
  simp only [Option.bind_eq_bind, Option.bind_some]
  rw [if_pos (by simp only [List.length_append, List.length_cons]; omega),
    List.set_append_right _ _ le_rfl, Nat.sub_self]
  cases gap <;> simp

theorem tail_four (gap : List UInt8) (d0 d1 d2 d3 : UInt8) :
    ((((gap ++ [d0]).tail ++ [d1]).tail ++ [d2]).tail ++ [d3]).tail =
      (gap ++ [d0, d1, d2, d3]).drop 4 := by
  rcases gap with _ | ⟨a, _ | ⟨b, _ | ⟨c, _ | ⟨e, gap⟩⟩⟩⟩ <;> simp

theorem xorFour_eq (mask : List UInt8) {dst src : ℕ} (d0 d1 d2 d3 : UInt8) (hDst : dst = pre.length)
    (hSrc : src = pre.length + gap.length) :
    xorFour mask (pre ++ (gap ++ ([d0, d1, d2, d3] ++ rest))) dst src =
      some ((pre ++ Masking.mask mask [d0, d1, d2, d3]) ++
        ((gap ++ [d0, d1, d2, d3]).drop 4 ++ rest)) := by
  have hTail : ∀ (gap : List UInt8) (d : UInt8), (gap ++ [d]).tail.length = gap.length := by simp
  simp only [xorFour, Option.bind_eq_bind, List.cons_append, List.nil_append]
  rw [xorByte_eq _ _ _ _ hDst hSrc, Option.bind_some,
    xorByte_eq _ _ _ _ (by simp [hDst])
      (by simp only [hTail, List.length_append, List.length_singleton]; omega),
    Option.bind_some,
    xorByte_eq _ _ _ _ (by simp [hDst])
      (by simp only [hTail, List.length_append, List.length_singleton]; omega),
    Option.bind_some,
    xorByte_eq _ _ _ _ (by simp [hDst])
      (by simp only [hTail, List.length_append, List.length_singleton]; omega),
    tail_four]
  simp [Masking.mask]

/-- The loops move the data down over the gap and unmask it. -/
theorem xorBlocks_eq {n dst src : ℕ} (hData : data.length = 4 * n) (hMask : mask.length = 4)
    (hDst : dst = pre.length) (hSrc : src = pre.length + gap.length) :
    xorBlocks mask n (pre ++ (gap ++ (data ++ rest))) dst src =
      some (pre ++ (Masking.mask mask data ++ ((gap ++ data).drop (4 * n) ++ rest))) := by
  induction n generalizing pre gap data dst src with
  | zero =>
    rw [List.length_eq_zero_iff.mp hData]
    simp [xorBlocks]
  | succ n ih =>
    rcases data with _ | ⟨d0, _ | ⟨d1, _ | ⟨d2, _ | ⟨d3, data⟩⟩⟩⟩ <;>
      simp only [List.length_nil, List.length_cons] at hData <;> try omega
    have hFour := xorFour_eq pre gap (data ++ rest) mask d0 d1 d2 d3 hDst hSrc
    have hGap : ((gap ++ [d0, d1, d2, d3]).drop 4).length = gap.length := by simp
    have hSplit : d0 :: d1 :: d2 :: d3 :: data = [d0, d1, d2, d3] ++ data := rfl
    have hRotate : mask.rotate 4 = mask := by rw [← hMask, List.rotate_length]
    rw [xorBlocks, hSplit, List.append_assoc, hFour]
    simp only [Option.bind_eq_bind, Option.bind_some]
    rw [ih _ _ _ (by omega) (by simp [hDst]) (by rw [hGap, List.length_append, Masking.length_mask]; simp; omega),
      Masking.mask_append hMask, show [d0, d1, d2, d3].length = 4 from rfl, hRotate]
    have hDrop : ((gap ++ [d0, d1, d2, d3]).drop 4 ++ data).drop (4 * n) =
        (gap ++ ([d0, d1, d2, d3] ++ data)).drop (4 * (n + 1)) := by
      rw [← List.drop_append_of_le_length (by simp), List.drop_drop, List.append_assoc, Nat.mul_succ, Nat.add_comm 4]
    rw [hDrop]
    simp only [List.append_assoc]

/-- The payload is moved down over the gap and unmasked; what is behind it, and has the length of
the gap and a pass, is not kept. -/
theorem unmaskImprecise_eq {dst src n : ℕ} (hData : data.length = n) (hMask : mask.length = 4)
    (hDst : dst = pre.length) (hSrc : src = pre.length + gap.length) (hRest : 4 ≤ rest.length) :
    ∃ junk, junk.length = gap.length + rest.length ∧
      unmaskImprecise (pre ++ (gap ++ (data ++ rest))) dst src mask n =
        some (pre ++ (Masking.mask mask data ++ junk)) := by
  subst hData
  have hMod := Nat.div_add_mod data.length 4
  have hLt := Nat.mod_lt data.length (show 0 < 4 by decide)
  let above := rest.take (4 - data.length % 4)
  have hOver : above.length = 4 - data.length % 4 := by simp [above]; omega
  have hBlocks := xorBlocks_eq pre gap (data ++ above) (rest.drop (4 - data.length % 4))
    (n := data.length / 4 + 1) (by rw [List.length_append, hOver]; omega) hMask hDst hSrc
  have hAll : data ++ above ++ rest.drop (4 - data.length % 4) = data ++ rest := by
    rw [List.append_assoc, List.take_append_drop]
  rw [hAll, Masking.mask_append hMask, List.append_assoc] at hBlocks
  refine ⟨_, ?_, hBlocks⟩
  simp only [List.length_append, Masking.length_mask, List.length_drop, hOver]
  omega

/-- Over a gap as wide as a pass, nothing behind the payload is touched. -/
theorem unmaskImprecise_keeps {dst src n : ℕ} (hData : data.length = n) (hMask : mask.length = 4)
    (hDst : dst = pre.length) (hSrc : src = pre.length + gap.length) (hGap : gap.length = 4)
    (hRest : 4 ≤ rest.length) :
    ∃ junk, junk.length = 4 ∧
      unmaskImprecise (pre ++ (gap ++ (data ++ rest))) dst src mask n =
        some (pre ++ (Masking.mask mask data ++ (junk ++ rest))) := by
  subst hData
  have hMod := Nat.div_add_mod data.length 4
  have hLt := Nat.mod_lt data.length (show 0 < 4 by decide)
  obtain ⟨above, back, rfl, hOver⟩ : ∃ above back, rest = above ++ back ∧
      above.length = 4 - data.length % 4 :=
    ⟨_, _, (List.take_append_drop (4 - data.length % 4) rest).symm, by rw [List.length_take]; omega⟩
  have hBlocks := xorBlocks_eq pre gap (data ++ above) back (n := data.length / 4 + 1)
    (by rw [List.length_append, hOver]; omega) hMask hDst hSrc
  -- the last pass ends inside the gap that is left, which has the first bytes behind the payload last
  have hLast : (gap ++ (data ++ above)).drop (4 * (data.length / 4 + 1)) =
      (gap ++ data).drop (4 * (data.length / 4 + 1)) ++ above := by
    rw [← List.append_assoc, List.drop_append_of_le_length]
    rw [List.length_append]
    omega
  rw [Masking.mask_append hMask, hLast] at hBlocks
  refine ⟨Masking.mask (mask.rotate data.length) above ++
    (gap ++ data).drop (4 * (data.length / 4 + 1)), ?_, ?_⟩
  · simp only [List.length_append, Masking.length_mask, List.length_drop, hOver]
    omega
  · simpa [unmaskImprecise, List.append_assoc] using hBlocks

/-- The part of a payload that is there is unmasked where it stands. -/
theorem unmaskInplace_eq {src n : ℕ} (hData : data.length = n) (hMask : mask.length = 4)
    (hSrc : src = pre.length) (hRest : 4 ≤ rest.length) :
    ∃ junk, junk.length = rest.length ∧
      unmaskInplace (pre ++ (data ++ rest)) src (src + (n / 4 + 1) * 4) mask =
        some (pre ++ (Masking.mask mask data ++ junk)) := by
  obtain ⟨junk, hJunk, hEq⟩ := unmaskImprecise_eq pre [] data rest hData hMask hSrc
    (by simpa using hSrc) hRest
  refine ⟨junk, by simpa using hJunk, ?_⟩
  have hPasses : (src + (n / 4 + 1) * 4 - src + 3) / 4 = n / 4 + 1 := by omega
  rw [unmaskInplace, hPasses]
  simpa [unmaskImprecise] using hEq

theorem xorRest_eq (mask : List UInt8) {s src : ℕ} (hData : data.length = s) (hs : s ≤ 4) (hSrc : src = pre.length) :
    xorRest mask (pre ++ (data ++ rest)) src s = some (pre ++ (Masking.mask mask data ++ rest)) := by
  induction s generalizing data rest with
  | zero =>
    rw [List.length_eq_zero_iff.mp hData]
    rfl
  | succ s ih =>
    obtain ⟨front, d, rfl⟩ := List.eq_nil_or_concat data |>.resolve_left (by
      rintro rfl
      cases hData)
    have hFront : front.length = s := by simpa using hData
    rw [List.concat_eq_append, xorRest, List.append_assoc, ih _ ([d] ++ rest) hFront (by omega)]
    simp only [Option.bind_eq_bind, Option.bind_some]
    have hPlace : src + s = (pre ++ Masking.mask mask front).length := by simp [hSrc, hFront]
    have hByte := xorByte_eq (pre ++ Masking.mask mask front) [] rest (d := d) (mask.getD s 0) hPlace hPlace
    have hMod : s % 4 = s := Nat.mod_eq_of_lt (by omega)
    simpa [Masking.mask, List.mapIdx_append, hFront, hMod] using hByte

/-- The rest of a payload is unmasked where it stands, and nothing behind it is touched. -/
theorem unmaskEnd_eq {src n : ℕ} (hData : data.length = n) (hMask : mask.length = 4)
    (hSrc : src = pre.length) :
    unmaskEnd (pre ++ (data ++ rest)) src mask n =
      some (pre ++ (Masking.mask mask data ++ rest)) := by
  subst hData hSrc
  obtain ⟨front, back, rfl, hFront, hBack⟩ : ∃ front back, data = front ++ back ∧
      front.length = 4 * (data.length / 4) ∧ back.length = data.length % 4 := by
    refine ⟨_, _, (List.take_append_drop (4 * (data.length / 4)) data).symm, ?_, ?_⟩
    · rw [List.length_take]
      omega
    · rw [List.length_drop]
      omega
  generalize hq : (front ++ back).length / 4 = q at hFront
  have hPasses : (pre.length + q * 4 - pre.length + 3) / 4 = q := by omega
  have hBlocks : xorBlocks mask q (pre ++ ([] ++ (front ++ (back ++ rest)))) pre.length pre.length = _ :=
    xorBlocks_eq pre [] front (back ++ rest) hFront hMask rfl rfl
  have hRest := xorRest_eq (pre ++ Masking.mask mask front) back rest mask hBack (by omega)
    (by rw [List.length_append, Masking.length_mask, hFront, Nat.mul_comm])
  have hRotate : mask.rotate front.length = mask := by
    rw [hFront, ← Masking.rotate_mod hMask, Nat.mul_mod_right, List.rotate_zero]
  have hDrop : ([] ++ front).drop (4 * q) = [] := List.drop_eq_nil_of_le (by simp [hFront])
  rw [hDrop, List.nil_append, List.nil_append] at hBlocks
  simp only [unmaskEnd, unmaskInplace, hq, hPasses, Option.bind_eq_bind, List.append_assoc, hBlocks,
    Option.bind_some, Masking.mask_append hMask, hRotate]
  simpa using hRest

/-- The mask is rotated to where the payload goes on. -/
theorem rotateMask_eq {n : ℕ} (hMask : mask.length = 4) :
    rotateMask (4 - n % 4) mask = mask.rotate n := by
  rw [← Masking.rotate_mod hMask n]
  have hLt := Nat.mod_lt n (show 0 < 4 by decide)
  obtain ⟨m0, m1, m2, m3, rfl⟩ := List.length_eq_four.mp hMask
  generalize n % 4 = r at hLt ⊢
  obtain rfl | rfl | rfl | rfl : r = 0 ∨ r = 1 ∨ r = 2 ∨ r = 3 := by omega
  all_goals rfl

end DemoCode.Uws

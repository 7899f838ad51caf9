import Abcout.Proofs.Image

/-!
# Abcout.Proofs.Codec — programs to images and back, exactly

Every program that fits has an image, and every image with a sentinel at an instruction boundary holds a program.
Neither way is the inverse of the other: a program is read back up to its first sentinel, and an image is written
again only if there are zeros behind it.

* `decode_image_eq`: what is read back of an image that was written.
* `decode_eq_noHalt_iff`: the images that hold no program.
* `Program.codec_exact`: both directions, for all programs and all bytes.
-/

namespace Abcout

namespace Program

/-- The instructions before the first sentinel. -/
def beforeHalt (p : Program) : Program := p.takeWhile fun i => !i.isHalt

theorem beforeHalt_cons {i : Instruction} (hi : i.isHalt = false) (p : Program) :
    beforeHalt (i :: p) = i :: beforeHalt p := by
  unfold beforeHalt
  rw [List.takeWhile_cons, hi]
  rfl

/-- Code with a sentinel behind it is read up to the first sentinel, which may be one of the code. -/
theorem scan_code_halt_append (p : Program) (rest : List UInt8) :
    scan (p.code ++ Instruction.halt.toBytes ++ rest) = .ok p.beforeHalt := by
  induction p with
  | nil => exact scan_code_append List.not_mem_nil rest
  | cons i p ih =>
    rw [code_cons, List.append_assoc, List.append_assoc, scan_toBytes_append, ← List.append_assoc (code p), ih]
    by_cases hi : i.isHalt = true
    · obtain rfl := Instruction.isHalt_iff.1 hi
      rfl
    · rw [Bool.not_eq_true] at hi
      rw [hi, beforeHalt_cons hi]
      rfl

theorem decode_image_eq {p : Program} (fits : p.length ≤ Image.capacity) : decode p.image = .ok p.beforeHalt := by
  unfold decode
  rw [if_pos (length_image fits)]
  exact scan_code_halt_append p _

end Program

/-! ## Images without a sentinel -/

namespace Image

theorem slot_ne_of_length_lt {bytes : List UInt8} {k : Nat} (h : bytes.length < 6 * k + 6) (i : Instruction) :
    slot bytes k ≠ i.toBytes := by
  intro he
  have hlength := congrArg List.length he
  rw [Instruction.length_toBytes, Instruction.size, slot, List.length_take, List.length_drop] at hlength
  omega

end Image

namespace Program

/-- Reading fails iff there is no sentinel at any instruction boundary. -/
theorem scan_eq_error_iff {b : List UInt8} {e : DecodeError} :
    scan b = .error e ↔ e = .noHalt ∧ ∀ k, Image.slot b k ≠ Instruction.halt.toBytes := by
  fun_induction scan b with
  | case1 a₁ a₀ b₁ b₀ c₁ c₀ rest i =>
    rename_i hi
    have hb : i.toBytes = _ := Instruction.toBytes_ofBytePairs a₁ a₀ b₁ b₀ c₁ c₀
    rw [Instruction.isHalt_iff.1 hi] at hb
    constructor
    · intro h
      cases h
    · rintro ⟨-, h⟩
      exact absurd hb.symm (h 0)
  | case2 a₁ a₀ b₁ b₀ c₁ c₀ rest i hi =>
    rename_i ih
    have hb : a₁ :: a₀ :: b₁ :: b₀ :: c₁ :: c₀ :: rest = i.toBytes ++ rest := by
      rw [Instruction.toBytes_ofBytePairs a₁ a₀ b₁ b₀ c₁ c₀]
      rfl
    have hmap : ((i :: ·) <$> scan rest) = .error e ↔ scan rest = .error e := by
      cases scan rest with
      | error e' => exact Iff.rfl
      | ok q =>
        constructor
        · intro h
          cases h
        · intro h
          cases h
    rw [hmap, ih, hb]
    -- the first slot holds `i`, and the others are those of the rest
    refine and_congr_right fun _ => ⟨fun h k => ?_, fun h k => ?_⟩
    · cases k with
      | zero =>
        rw [Image.slot_toBytes_append_zero]
        intro he
        rw [Instruction.isHalt_iff] at hi
        exact hi (Instruction.toBytes_injective he)
      | succ k =>
        rw [Image.slot_toBytes_append_succ]
        exact h k
    · have hk := h (k + 1)
      rwa [Image.slot_toBytes_append_succ] at hk
  | case3 b hb =>
    have hlength : b.length < 6 := by
      rcases b with _ | ⟨a₁, _ | ⟨a₀, _ | ⟨b₁, _ | ⟨b₀, _ | ⟨c₁, _ | ⟨c₀, rest⟩⟩⟩⟩⟩⟩
      case cons.cons.cons.cons.cons.cons => exact absurd rfl (hb a₁ a₀ b₁ b₀ c₁ c₀ rest)
      all_goals simp
    constructor
    · intro h
      cases h
      exact ⟨rfl, fun k => Image.slot_ne_of_length_lt (by omega) _⟩
    · rintro ⟨rfl, -⟩
      rfl

/-- **Images that hold no program**: none of their slots holds the sentinel.  There is one slot more than
instructions fit, and two bytes behind it. -/
theorem decode_eq_noHalt_iff {b : List UInt8} : decode b = .error .noHalt ↔
    b.length = Image.size ∧ ∀ k < Image.capacity + 1, Image.slot b k ≠ Instruction.halt.toBytes := by
  unfold decode
  split_ifs with hb
  · rw [scan_eq_error_iff]
    constructor
    · rintro ⟨-, h⟩
      exact ⟨hb, fun k _ => h k⟩
    · rintro ⟨-, h⟩
      refine ⟨rfl, fun k => ?_⟩
      by_cases hk : k < Image.capacity + 1
      · exact h k hk
      · have hk' : 5461 ≤ k := Nat.not_lt.1 hk
        have hb' : b.length = 32768 := hb
        exact Image.slot_ne_of_length_lt (by omega) _
  · constructor
    · intro h
      cases h
    · rintro ⟨hlength, -⟩
      exact absurd hlength hb

/-! ## Both ways -/

theorem encode_eq_error_iff {p : Program} : (∃ e, p.encode = .error e) ↔ 5460 < p.length := by
  have hcapacity : Image.capacity = 5460 := rfl
  rw [encode_eq]
  split_ifs with hp
  · exact iff_of_false (by rintro ⟨e, h⟩; cases h) (by omega)
  · exact iff_of_true ⟨_, rfl⟩ (by omega)

theorem decode_of_encode {p : Program} {b : List UInt8} (h : p.encode = .ok b) : decode b = .ok p.beforeHalt := by
  rw [encode_eq] at h
  split_ifs at h with hp
  cases h
  exact decode_image_eq hp

/-- **The codec.**  A program has an image iff it has at most 5460 instructions, and is read back up to its first
sentinel.  Bytes hold a program iff they are as many as an image has, and are its code, free of sentinels, then the
sentinel, then anything; the program is then written to the same bytes iff there are only zeros behind the
sentinel.  As many bytes of which none of the 5461 slots is a sentinel hold no program. -/
theorem codec_exact :
    (∀ p : Program, ((∃ e, p.encode = .error e) ↔ 5460 < p.length) ∧
      ∀ b, p.encode = .ok b → decode b = .ok p.beforeHalt) ∧
    (∀ (b : List UInt8) (p : Program), decode b = .ok p ↔
      b.length = 32768 ∧ ∃ rest, b = p.flatMap Instruction.toBytes ++ Instruction.halt.toBytes ++ rest ∧
        ∀ i ∈ p, i ≠ Instruction.halt) ∧
    (∀ (b : List UInt8) (p : Program), decode b = .ok p →
      ∃ image, p.encode = .ok image ∧ (image = b ↔ ∀ x ∈ b.drop (6 * p.length + 6), x = 0)) ∧
    ∀ b : List UInt8, decode b = .error .noHalt ↔
      b.length = 32768 ∧ ∀ k < 5461, (b.drop (6 * k)).take 6 ≠ Instruction.halt.toBytes := by
  refine ⟨fun p => ⟨encode_eq_error_iff, fun b => decode_of_encode⟩, fun b p => ?_, fun b p h => ?_, fun b =>
    decode_eq_noHalt_iff⟩
  · rw [decode_eq_ok_iff]
    constructor
    · rintro ⟨hb, free, rest, hrest⟩
      exact ⟨hb, rest, hrest, fun i hi he => free (he ▸ hi)⟩
    · rintro ⟨hb, rest, hrest, free⟩
      exact ⟨hb, fun hmem => free _ hmem rfl, rest, hrest⟩
  · refine ⟨p.image, ?_, image_eq_iff_of_decode h⟩
    rw [encode_eq, if_pos (length_le_of_decode h)]

/-- A program with the sentinel in its middle. -/
def interrupted : Program := [⟨1, 2, 6⟩, Instruction.halt, ⟨3, 4, 0⟩]

/-- It is read back up to there, and what is read back has another image. -/
theorem codec_exact_interrupted : ∃ b image, interrupted.encode = .ok b ∧ decode b = .ok [⟨1, 2, 6⟩] ∧
    encode [⟨1, 2, 6⟩] = .ok image ∧ image ≠ b := by
  obtain ⟨hencode, -, hagain, -⟩ := codec_exact
  have hb : interrupted.encode = .ok interrupted.image := by
    rw [encode_eq, if_pos (by decide)]
  have hdecode : decode interrupted.image = .ok [⟨1, 2, 6⟩] := (hencode interrupted).2 _ hb
  obtain ⟨image, himage, hsame⟩ := hagain _ _ hdecode
  refine ⟨interrupted.image, image, hb, hdecode, himage, fun he => ?_⟩
  -- the third instruction stands behind the sentinel
  have hbehind : (3 : UInt8) ∈ interrupted.image.drop 12 := by
    show (3 : UInt8) ∈ [0, 3, 0, 4, 0, 0] ++ Instruction.halt.toBytes ++ _
    simp
  exact absurd (hsame.1 he 3 hbehind) (by decide)

end Program

end Abcout

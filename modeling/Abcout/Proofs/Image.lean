import Mathlib.Tactic.Common
import Abcout.Machine.Program

/-!
# Abcout.Proofs.Image — what the writer leaves in an image, and what is read from one

`p.code` are the bytes of the instructions of `p`, `p.image` the whole image: code, sentinel, zeros.

* `Writer.Holds w p`: the writer `w` has taken exactly the instructions `p`.  It holds of the empty writer, a push
  that succeeds keeps it (`Holds.of_push`), a push succeeds as long as there is room (`Holds.push_ok`).
* `encode_eq`: a program is encoded to `p.image` if it fits, and not at all otherwise.
* `decode_eq_ok_iff`: an image decodes to `p` iff it is the code of `p`, the sentinel and anything, and `p` is free
  of the sentinel.
-/

namespace Abcout

namespace Instruction

theorem wordBytes_ofBytePair (high low : UInt8) : wordBytes (ofBytePair high low) = [high, low] := by
  have hh := high.toNat_lt
  have hl := low.toNat_lt
  have e : (ofBytePair high low).toNat = 256 * high.toNat + low.toNat := by
    simp only [ofBytePair, UInt16.toNat_ofNat']
    omega
  have e1 : (256 * high.toNat + low.toNat) / 256 = high.toNat := by omega
  have e2 : (256 * high.toNat + low.toNat) % 256 = low.toNat := by omega
  simp [wordBytes, e, e1, e2]

theorem toBytes_ofBytePairs (a₁ a₀ b₁ b₀ c₁ c₀ : UInt8) :
    toBytes ⟨ofBytePair a₁ a₀, ofBytePair b₁ b₀, ofBytePair c₁ c₀⟩ = [a₁, a₀, b₁, b₀, c₁, c₀] := by
  simp only [toBytes, wordBytes_ofBytePair]
  rfl

end Instruction

namespace Program

/-- The bytes of the instructions of a program. -/
def code (p : Program) : List UInt8 := p.flatMap Instruction.toBytes

/-- The image of a program: its code, the sentinel, and zeros. -/
def image (p : Program) : List UInt8 :=
  p.code ++ Instruction.halt.toBytes ++ List.replicate (Image.size - (6 * p.length + 6)) 0

@[simp] theorem code_nil : code [] = [] := rfl

@[simp] theorem code_cons (i : Instruction) (p : Program) : code (i :: p) = i.toBytes ++ code p := rfl

theorem code_concat (p : Program) (i : Instruction) : code (p ++ [i]) = code p ++ i.toBytes := by
  simp [code]

@[simp] theorem length_code (p : Program) : p.code.length = 6 * p.length := by
  induction p with
  | nil => rfl
  | cons i p ih =>
    rw [code_cons, List.length_append, ih, Instruction.length_toBytes, List.length_cons, Instruction.size]
    omega

theorem length_image {p : Program} (fits : p.length ≤ Image.capacity) : p.image.length = Image.size := by
  have hc : p.length ≤ 5460 := fits
  simp only [image, List.length_append, length_code, Instruction.length_toBytes, List.length_replicate,
    Image.size, Instruction.size]
  omega

end Program

/-! ## The writer -/

namespace Image.Writer

/-- A writer that has taken the instructions `p`: they stand at the front, and all else is zero. -/
structure Holds (w : Writer) (p : Program) : Prop where
  fits : p.length ≤ capacity
  next_eq : w.next = 6 * p.length
  bytes_eq : w.bytes.toList = p.code ++ List.replicate (size - 6 * p.length) 0

theorem holds_empty : Holds empty [] where
  fits := by decide
  next_eq := rfl
  bytes_eq := by simp [empty]

variable {w w' : Writer} {p : Program} {i : Instruction}

theorem Holds.size_bytes (h : w.Holds p) : w.bytes.size = size := by
  have hc : p.length ≤ 5460 := h.fits
  have e := congrArg List.length h.bytes_eq
  simp only [Array.length_toList, List.length_append, Program.length_code, List.length_replicate] at e
  rw [e]
  simp only [size]
  omega

/-- Six bytes written behind the instructions leave zeros behind them. -/
theorem Holds.toList_overwrite (h : w.Holds p) (i : Instruction) :
    (overwrite w.bytes w.next i.toBytes).toList =
      p.code ++ i.toBytes ++ List.replicate (size - (6 * p.length + 6)) 0 := by
  have hc : p.length ≤ 5460 := h.fits
  have hfit : w.next + i.toBytes.length ≤ w.bytes.size := by
    rw [h.size_bytes, h.next_eq, Instruction.length_toBytes]
    simp only [size, Instruction.size]
    omega
  rw [Image.toList_overwrite hfit, h.bytes_eq, h.next_eq, Instruction.length_toBytes]
  have htake : (p.code ++ List.replicate (size - 6 * p.length) (0 : UInt8)).take (6 * p.length) = p.code := by
    rw [← Program.length_code p, List.take_left]
  have hdrop : (p.code ++ List.replicate (size - 6 * p.length) (0 : UInt8)).drop
      (6 * p.length + Instruction.size) = List.replicate (size - (6 * p.length + 6)) 0 := by
    rw [← List.drop_drop, ← Program.length_code p, List.drop_left, List.drop_replicate]
    rfl
  rw [htake, hdrop]

theorem Holds.push_ok (h : w.Holds p) (i : Instruction) (room : p.length < capacity) :
    ∃ w', w.push i = .ok w' ∧ w'.Holds (p ++ [i]) := by
  have hc : p.length < 5460 := room
  have hn : ¬ codeSize ≤ w.next := by
    rw [h.next_eq, codeSize]
    omega
  refine ⟨_, if_neg hn, ?_, ?_, ?_⟩
  · rw [List.length_append]
    exact room
  · rw [List.length_append, h.next_eq]
    rfl
  · rw [h.toList_overwrite, Program.code_concat, List.length_append]
    rfl

theorem Holds.push_full (h : w.Holds p) (i : Instruction) (full : capacity ≤ p.length) :
    w.push i = .error .tooManyInstructions := by
  have hc : 5460 ≤ p.length := full
  refine if_pos ?_
  rw [h.next_eq, codeSize]
  omega

/-- **Step**: a push that succeeds had room, and adds its instruction. -/
theorem Holds.of_push (h : w.Holds p) (hw : w.push i = .ok w') : w'.Holds (p ++ [i]) := by
  rcases Nat.lt_or_ge p.length capacity with room | full
  · obtain ⟨w'', hw'', hp⟩ := h.push_ok i room
    rw [hw] at hw''
    cases hw''
    exact hp
  · rw [h.push_full i full] at hw
    cases hw

theorem Holds.finish_eq (h : w.Holds p) : w.finish = p.image := h.toList_overwrite Instruction.halt

/-- **Run**: pushing a list of instructions adds them all if there is room for all, and fails otherwise. -/
theorem Holds.foldlM_push (h : w.Holds p) (q : Program) :
    if (p ++ q).length ≤ capacity then ∃ w', q.foldlM push w = .ok w' ∧ w'.Holds (p ++ q)
    else q.foldlM push w = .error .tooManyInstructions := by
  induction q generalizing w p with
  | nil => simpa [h.fits] using ⟨w, rfl, h⟩
  | cons i q ih =>
    rw [List.foldlM_cons]
    rcases Nat.lt_or_ge p.length capacity with room | full
    · obtain ⟨w', hw', hp⟩ := h.push_ok i room
      rw [hw', List.append_cons]
      exact ih hp
    · have hlen : ¬ (p ++ i :: q).length ≤ capacity := by
        rw [List.length_append, List.length_cons]
        omega
      rw [if_neg hlen, h.push_full i full]
      rfl

end Image.Writer

/-! ## The codec -/

namespace Program

theorem encode_eq (p : Program) :
    p.encode = if p.length ≤ Image.capacity then .ok p.image else .error .tooManyInstructions := by
  have h := Image.Writer.holds_empty.foldlM_push p
  rw [List.nil_append] at h
  unfold encode
  split_ifs at h ⊢ with hp
  · obtain ⟨w, hw, hold⟩ := h
    rw [hw, ← hold.finish_eq]
    rfl
  · rw [h]
    rfl

theorem scan_toBytes_append (i : Instruction) (rest : List UInt8) :
    scan (i.toBytes ++ rest) = if i.isHalt then .ok [] else (i :: ·) <$> scan rest := by
  have e : i.toBytes ++ rest =
      UInt8.ofNat (i.a.toNat / 256) :: UInt8.ofNat (i.a.toNat % 256) ::
      UInt8.ofNat (i.b.toNat / 256) :: UInt8.ofNat (i.b.toNat % 256) ::
      UInt8.ofNat (i.c.toNat / 256) :: UInt8.ofNat (i.c.toNat % 256) :: rest := rfl
  rw [e, scan]
  simp only [Instruction.ofBytePair_bytes]

theorem scan_code_append {p : Program} (free : Instruction.halt ∉ p) (rest : List UInt8) :
    scan (p.code ++ Instruction.halt.toBytes ++ rest) = .ok p := by
  induction p with
  | nil => simp [scan_toBytes_append]
  | cons i p ih =>
    rw [List.mem_cons, not_or] at free
    have hi : i.isHalt = false := by
      rw [← Bool.not_eq_true, Instruction.isHalt_iff]
      exact fun h => free.1 h.symm
    rw [code_cons, List.append_assoc, List.append_assoc, scan_toBytes_append, hi, ← List.append_assoc,
      ih free.2]
    rfl

/-- What is read from bytes stands at their front, with the first sentinel behind it. -/
theorem eq_of_scan_eq_ok {b : List UInt8} {p : Program} (h : scan b = .ok p) :
    Instruction.halt ∉ p ∧ ∃ rest, b = p.code ++ Instruction.halt.toBytes ++ rest := by
  fun_induction scan b generalizing p with
  | case1 a₁ a₀ b₁ b₀ c₁ c₀ rest i =>
    rename_i hi
    cases h
    have hb : i.toBytes = _ := Instruction.toBytes_ofBytePairs a₁ a₀ b₁ b₀ c₁ c₀
    rw [Instruction.isHalt_iff.1 hi] at hb
    exact ⟨List.not_mem_nil, rest, by rw [hb]; rfl⟩
  | case2 a₁ a₀ b₁ b₀ c₁ c₀ rest i hi =>
    rename_i ih
    have hb : i.toBytes = _ := Instruction.toBytes_ofBytePairs a₁ a₀ b₁ b₀ c₁ c₀
    cases hs : scan rest with
    | error e =>
      rw [hs] at h
      cases h
    | ok q =>
      rw [hs] at h
      cases h
      obtain ⟨free, rest', hrest⟩ := ih hs
      rw [Instruction.isHalt_iff] at hi
      refine ⟨?_, rest', ?_⟩
      · rw [List.mem_cons, not_or]
        exact ⟨fun h => hi h.symm, free⟩
      · rw [code_cons, hb, hrest]
        rfl
  | case3 => cases h

/-- **Decoding, exactly**: an image holds `p` iff it is the code of `p`, the first sentinel, and anything. -/
theorem decode_eq_ok_iff {b : List UInt8} {p : Program} :
    decode b = .ok p ↔ b.length = Image.size ∧ Instruction.halt ∉ p ∧
      ∃ rest, b = p.code ++ Instruction.halt.toBytes ++ rest := by
  unfold decode
  constructor
  · intro h
    split_ifs at h with hb
    exact ⟨hb, eq_of_scan_eq_ok h⟩
  · rintro ⟨hb, free, rest, rfl⟩
    rw [if_pos hb, scan_code_append free]

theorem decode_image {p : Program} (fits : p.length ≤ Image.capacity) (free : Instruction.halt ∉ p) :
    decode p.image = .ok p :=
  decode_eq_ok_iff.2 ⟨length_image fits, free, _, rfl⟩

/-- A program that was read from an image fits in one. -/
theorem length_le_of_decode {b : List UInt8} {p : Program} (h : decode b = .ok p) :
    p.length ≤ Image.capacity := by
  obtain ⟨hb, -, rest, rfl⟩ := decode_eq_ok_iff.1 h
  simp only [List.length_append, length_code, Instruction.length_toBytes, Instruction.size, Image.size] at hb
  show p.length ≤ 5460
  omega

end Program

/-! ## The first sentinel -/

theorem Instruction.toBytes_injective {i j : Instruction} (h : i.toBytes = j.toBytes) : i = j := by
  have e := congrArg ofBytes h
  rw [ofBytes_toBytes, ofBytes_toBytes] at e
  exact Except.ok.inj e

theorem Instruction.take_toBytes_append (i : Instruction) (rest : List UInt8) :
    (i.toBytes ++ rest).take 6 = i.toBytes := rfl

theorem Instruction.drop_toBytes_append (i : Instruction) (rest : List UInt8) :
    (i.toBytes ++ rest).drop 6 = rest := rfl

namespace Image

/-- The six bytes at the `k`-th instruction boundary. -/
def slot (bytes : List UInt8) (k : Nat) : List UInt8 := (bytes.drop (6 * k)).take 6

/-- The first sentinel at an instruction boundary stands at the `k`-th. -/
def FirstHalt (bytes : List UInt8) (k : Nat) : Prop :=
  slot bytes k = Instruction.halt.toBytes ∧ ∀ j < k, slot bytes j ≠ Instruction.halt.toBytes

theorem slot_toBytes_append_zero (i : Instruction) (rest : List UInt8) : slot (i.toBytes ++ rest) 0 = i.toBytes :=
    rfl

theorem slot_toBytes_append_succ (i : Instruction) (rest : List UInt8) (k : Nat) :
    slot (i.toBytes ++ rest) (k + 1) = slot rest k := by
  unfold slot
  rw [Nat.mul_succ, Nat.add_comm, ← List.drop_drop, i.drop_toBytes_append]

theorem slot_code_append {p : Program} (rest : List UInt8) {k : Nat} (hk : k < p.length) :
    slot (p.code ++ rest) k = p[k].toBytes := by
  induction p generalizing k with
  | nil => exact absurd hk (Nat.not_lt_zero k)
  | cons i p ih =>
    rw [Program.code_cons, List.append_assoc]
    cases k with
    | zero => exact slot_toBytes_append_zero i _
    | succ k =>
      rw [slot_toBytes_append_succ]
      exact ih (Nat.lt_of_succ_lt_succ hk)

end Image

namespace Program

variable {b : List UInt8} {p : Program}

/-- A program ends where the first sentinel stands. -/
theorem firstHalt_of_decode (h : decode b = .ok p) : Image.FirstHalt b p.length := by
  obtain ⟨-, free, rest, rfl⟩ := decode_eq_ok_iff.1 h
  constructor
  · unfold Image.slot
    rw [List.append_assoc, ← length_code, List.drop_left]
    exact Instruction.take_toBytes_append _ _
  · intro j hj hslot
    rw [List.append_assoc, Image.slot_code_append _ hj] at hslot
    exact free (Instruction.toBytes_injective hslot ▸ List.getElem_mem hj)

/-- An image is that of the program it holds iff nothing but zeros stands behind the sentinel. -/
theorem image_eq_iff_of_decode (h : decode b = .ok p) :
    p.image = b ↔ ∀ x ∈ b.drop (6 * (p.length + 1)), x = 0 := by
  have fits := length_le_of_decode h
  obtain ⟨hb, -, rest, rfl⟩ := decode_eq_ok_iff.1 h
  have hfront : (p.code ++ Instruction.halt.toBytes).length = 6 * (p.length + 1) := by
    rw [List.length_append, length_code, Instruction.length_toBytes]
    rfl
  have hrest : rest.length = Image.size - (6 * p.length + 6) := by
    rw [List.length_append, hfront] at hb
    omega
  rw [← hfront, List.drop_left, image, List.append_cancel_left_eq, ← hrest, eq_comm, List.eq_replicate_iff]
  exact and_iff_right rfl

end Program

end Abcout

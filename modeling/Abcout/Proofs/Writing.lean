import Abcout.Proofs.Image

/-!
# Abcout.Proofs.Writing — a writer under any sequence of pushes

`Writer.push` gives a new writer or an error; what a failure leaves behind, and whether bytes are ever written
behind the end of the image, it does not say.  Here pushes are carried out step by step on one writer, which a step
that fails leaves as the steps before have made it.  A write that would leave the image is such a failure
(`Stop.outOfBounds`).

* `Writer.pushing`, `Writer.finishing`: the room is looked at, bytes are written, the address moves on.
* `Holds.run_pushing`, `Holds.run_finishing`: on a writer that `Holds` instructions, these come to `Writer.push`
  and `Writer.finish`.
* `Filling.ofPushes_layout`: the writer after any sequence of pushes, failing ones among them, and what one more
  push and the end do to it.
-/

namespace Abcout

namespace Image

/-- Why a step on a writer fails. -/
inductive Stop where
  | refused (e : EncodeError)
  | outOfBounds
deriving DecidableEq, Repr

namespace Writer

/-! ## Steps -/

/-- Steps on a writer.  What was done to it stays when a step fails. -/
abbrev Step := EStateM Stop Writer

/-- Looks whether there is room for one more instruction. -/
def ensureRoom : Step Unit := fun w =>
  if codeSize ≤ w.next then .error (.refused .tooManyInstructions) w else .ok () w

/-- Puts bytes over those at the next address, which stays as it is. -/
def write (bytes : List UInt8) : Step Unit := fun w =>
  if w.next + bytes.length ≤ w.bytes.size then .ok () { w with bytes := overwrite w.bytes w.next bytes }
  else .error .outOfBounds w

/-- Moves the address on by one instruction. -/
def advance : Step Unit := fun w => .ok () { w with next := w.next + Instruction.size }

/-- Writes one instruction at the next address. -/
def pushing (i : Instruction) : Step Unit := do
  ensureRoom
  write i.toBytes
  advance

/-- Writes the sentinel and hands the image over. -/
def finishing : Step (List UInt8) := do
  write Instruction.halt.toBytes
  return (← get).bytes.toList

variable {w : Writer} {p : Program}

theorem Holds.next_le (h : w.Holds p) : w.next ≤ codeSize := by
  have hc : p.length ≤ 5460 := h.fits
  rw [h.next_eq]
  show 6 * p.length ≤ 32760
  omega

/-- Six bytes fit behind the instructions, also when no further instruction is taken. -/
theorem Holds.inBounds (h : w.Holds p) : w.next + Instruction.size ≤ w.bytes.size := by
  have hn : w.next ≤ 32760 := h.next_le
  rw [h.size_bytes]
  show w.next + 6 ≤ 32768
  omega

theorem Holds.run_write (h : w.Holds p) (i : Instruction) :
    write i.toBytes w = .ok () { w with bytes := overwrite w.bytes w.next i.toBytes } :=
  if_pos h.inBounds

/-- A push, step by step: it never leaves the image, and a failure leaves the writer as it was. -/
theorem Holds.run_pushing (h : w.Holds p) (i : Instruction) : (pushing i).run w =
    match w.push i with
    | .ok w' => .ok () w'
    | .error e => .error (.refused e) w := by
  unfold push
  by_cases hroom : codeSize ≤ w.next
  · have hfull : ensureRoom w = .error (.refused .tooManyInstructions) w := if_pos hroom
    simp only [pushing, bind, EStateM.run, EStateM.bind, hfull, if_pos hroom]
  · have hfree : ensureRoom w = .ok () w := if_neg hroom
    simp only [pushing, bind, EStateM.run, EStateM.bind, hfree, h.run_write, if_neg hroom, advance]

theorem Holds.run_finishing (h : w.Holds p) :
    finishing.run w = .ok w.finish { w with bytes := overwrite w.bytes w.next Instruction.halt.toBytes } := by
  simp only [finishing, bind, EStateM.run, EStateM.bind, h.run_write]
  rfl

/-! ## The bytes of a writer -/

theorem Holds.take_bytes (h : w.Holds p) : w.bytes.toList.take w.next = p.code := by
  rw [h.bytes_eq, h.next_eq, ← Program.length_code, List.take_left]

theorem Holds.drop_bytes (h : w.Holds p) : ∀ x ∈ w.bytes.toList.drop w.next, x = 0 := by
  rw [h.bytes_eq, h.next_eq, ← Program.length_code, List.drop_left]
  intro x hx
  exact List.eq_of_mem_replicate hx

/-- **One more push**: it fails iff the code area is full, and then leaves the writer as it is. -/
theorem Holds.push_or_full (h : w.Holds p) (i : Instruction) :
    p.length < capacity ∧ (∃ w', w.push i = .ok w' ∧ (pushing i).run w = .ok () w') ∨
      p.length = capacity ∧ w.push i = .error .tooManyInstructions ∧
        (pushing i).run w = .error (.refused .tooManyInstructions) w := by
  rcases Nat.lt_or_ge p.length capacity with room | full
  · obtain ⟨w', hw', -⟩ := h.push_ok i room
    exact .inl ⟨room, w', hw', by rw [h.run_pushing, hw']⟩
  · have hw := h.push_full i full
    exact .inr ⟨Nat.le_antisymm h.fits full, hw, by rw [h.run_pushing, hw]⟩

/-- The sentinel takes the place of six bytes, and all others stay. -/
theorem Holds.getElem?_finish (h : w.Holds p) (k : Nat) : w.finish[k]? =
    if w.next ≤ k ∧ k < w.next + 6 then Instruction.halt.toBytes[k - w.next]? else w.bytes.toList[k]? := by
  have hin := h.inBounds
  have hlength : w.bytes.toList.length = w.bytes.size := Array.length_toList
  rw [finish, Image.toList_overwrite hin, List.append_assoc]
  have htake : (w.bytes.toList.take w.next).length = w.next := by
    rw [List.length_take]
    omega
  by_cases hbelow : k < w.next
  · rw [if_neg (by omega), List.getElem?_append_left (by omega), List.getElem?_take_of_lt hbelow]
  · rw [List.getElem?_append_right (by omega), htake]
    by_cases hmiddle : k < w.next + 6
    · rw [if_pos (by omega), List.getElem?_append_left]
      rw [Instruction.length_toBytes, Instruction.size]
      omega
    · rw [if_neg (by omega), List.getElem?_append_right, List.getElem?_drop]
      · congr 1
        simp only [Instruction.length_toBytes, Instruction.size]
        omega
      · rw [Instruction.length_toBytes, Instruction.size]
        omega

end Writer

/-! ## Sequences of pushes -/

/-- A writer after some pushes, and the instructions that were accepted, in order. -/
structure Filling where
  writer : Writer := .empty
  accepted : Program := []

namespace Filling

/-- One more push, which may fail. -/
def push (f : Filling) (i : Instruction) : Filling :=
  match (Writer.pushing i).run f.writer with
  | .ok _ w => ⟨w, f.accepted ++ [i]⟩
  | .error _ w => ⟨w, f.accepted⟩

/-- What pushes one after the other make of a new writer.  One that fails does not end them. -/
def ofPushes (pushes : List Instruction) : Filling := pushes.foldl push {}

variable {f : Filling}

/-- **Step**: one more push is accepted as long as there is room, and else changes nothing. -/
theorem push_eq (h : f.writer.Holds f.accepted) (i : Instruction) :
    (f.push i).writer.Holds (f.push i).accepted ∧ (f.push i).accepted = (f.accepted ++ [i]).take capacity := by
  unfold push
  rw [h.run_pushing]
  rcases Nat.lt_or_ge f.accepted.length capacity with room | full
  · obtain ⟨w, hw, hold⟩ := h.push_ok i room
    rw [hw]
    refine ⟨hold, (List.take_of_length_le ?_).symm⟩
    exact hold.fits
  · rw [h.push_full i full]
    refine ⟨h, ?_⟩
    have hlength : f.accepted.length = capacity := Nat.le_antisymm h.fits full
    rw [← hlength, List.take_left]

/-- **Run**: of all pushes the first are accepted, as many as fit. -/
theorem foldl_push (h : f.writer.Holds f.accepted) (pushes : List Instruction) :
    (pushes.foldl push f).writer.Holds (pushes.foldl push f).accepted ∧
      (pushes.foldl push f).accepted = (f.accepted ++ pushes).take capacity := by
  induction pushes generalizing f with
  | nil => exact ⟨h, by rw [List.foldl_nil, List.append_nil, List.take_of_length_le h.fits]⟩
  | cons i pushes ih =>
    obtain ⟨hold, haccepted⟩ := push_eq h i
    obtain ⟨hrun, hall⟩ := ih hold
    refine ⟨hrun, hall.trans ?_⟩
    -- what is refused now would be refused at the end, too
    rw [haccepted, List.append_cons f.accepted i pushes]
    generalize f.accepted ++ [i] = xs
    rw [List.take_append, List.take_append, List.take_take, Nat.min_self, List.length_take]
    congr 2
    omega

/-- **The writer after any sequence of pushes.**  The first 5460 are accepted.  Their bytes stand at the front of
an image of 32768 bytes, the next address is behind them, and all else is zero.  One more push fails iff 5460
instructions were accepted, and then changes neither bytes nor address.  The end stays within the image, and
changes the six bytes at the next address. -/
theorem ofPushes_layout (pushes : List Instruction) : ∃ w p, ofPushes pushes = ⟨w, p⟩ ∧ p = pushes.take 5460 ∧
    w.bytes.size = 32768 ∧ w.next = 6 * p.length ∧ w.next ≤ 32760 ∧
    w.bytes.toList.take w.next = p.flatMap Instruction.toBytes ∧ (∀ x ∈ w.bytes.toList.drop w.next, x = 0) ∧
    (∀ i, p.length < 5460 ∧ (∃ w', w.push i = .ok w' ∧ (Writer.pushing i).run w = .ok () w') ∨
      p.length = 5460 ∧ w.push i = .error .tooManyInstructions ∧
        (Writer.pushing i).run w = .error (.refused .tooManyInstructions) w) ∧
    (∃ w', Writer.finishing.run w = .ok w.finish w') ∧ w.finish.length = 32768 ∧
    ∀ k, w.finish[k]? =
      if w.next ≤ k ∧ k < w.next + 6 then Instruction.halt.toBytes[k - w.next]? else w.bytes.toList[k]? := by
  obtain ⟨hold, haccepted⟩ := foldl_push (f := {}) Writer.holds_empty pushes
  refine ⟨(ofPushes pushes).writer, (ofPushes pushes).accepted, rfl, haccepted, hold.size_bytes,
    hold.next_eq, hold.next_le, hold.take_bytes, hold.drop_bytes, hold.push_or_full, ⟨_, hold.run_finishing⟩, ?_,
    hold.getElem?_finish⟩
  exact (congrArg List.length hold.finish_eq).trans (Program.length_image hold.fits)

/-- One push more than fit: it is refused, and the sentinel goes to the end of the code area. -/
theorem ofPushes_layout_overfull : ∃ w p, ofPushes (List.replicate 5461 ⟨1, 2, 6⟩) = ⟨w, p⟩ ∧
    p = List.replicate 5460 ⟨1, 2, 6⟩ ∧ w.next = 32760 ∧
    w.bytes.toList.take 32760 = p.flatMap Instruction.toBytes ∧ w.push ⟨3, 4, 0⟩ = .error .tooManyInstructions ∧
    (Writer.pushing ⟨3, 4, 0⟩).run w = .error (.refused .tooManyInstructions) w ∧
    w.finish[32764]? = some 0x7F ∧ w.finish[32766]? = w.bytes.toList[32766]? := by
  obtain ⟨w, p, hw, hp, -, hnext, -, htake, -, hpush, -, -, hfinish⟩ :=
    ofPushes_layout (List.replicate 5461 ⟨1, 2, 6⟩)
  rw [List.take_replicate] at hp
  have hlength : p.length = 5460 := by
    rw [hp, List.length_replicate]
    rfl
  have hnext' : w.next = 32760 := by omega
  obtain ⟨hroom, -⟩ | ⟨-, hrefused, hrun⟩ := hpush ⟨3, 4, 0⟩
  · omega
  · refine ⟨w, p, hw, hp, hnext', hnext' ▸ htake, hrefused, hrun, ?_, ?_⟩
    · rw [hfinish, if_pos (by omega), hnext']
      rfl
    · rw [hfinish, if_neg (by omega)]

end Filling

end Image

end Abcout

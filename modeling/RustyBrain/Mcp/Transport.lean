import RustyBrain.Types.Basic

/-!
# rusty-brain — the lines of the MCP transport

`read_capped_line` collects a line over the buffers in which a reader shows its bytes, and
stops collecting, but not reading, when the line gets too long. What bytes decode to is left to
a parameter, and reading does not fail.

## Results

* `readCappedLine_lines` — all calls together give the lines of the stream.
-/

namespace RustyBrain.Mcp

open List Relation

def MAX_LINE_BYTES : Nat := 8 * 1024 * 1024

inductive LineRead where
  | line (text : Text)
  | tooLong
  | eof
  deriving DecidableEq

def newline : UInt8 := 10

/-- What `fill_buf` shows at once. It shows nothing only at the end of the input. -/
abbrev Chunk : Type := { bytes : List UInt8 // bytes ≠ [] }

/-- The bytes that a reader has left. -/
def bytes (chunks : List Chunk) : List UInt8 := chunks.flatMap Subtype.val

/-- `consume`. -/
def consume (n : Nat) (available : Chunk) (more : List Chunk) : List Chunk :=
  if h : available.val.drop n = [] then more else ⟨available.val.drop n, h⟩ :: more

/-- `buf` and `overflowed`. -/
structure LineBuffer where
  buf : List UInt8 := []
  overflowed : Bool := false

namespace LineBuffer

/-- Bytes of the line; of those that do not fit, what is `kept`. -/
def add (b : LineBuffer) (bytes kept : List UInt8) : LineBuffer :=
  if b.overflowed then b
  else if bytes.length > MAX_LINE_BYTES - b.buf.length then ⟨b.buf ++ kept, true⟩
  else { b with buf := b.buf ++ bytes }

/-- A buffer without a newline: what fits is kept. -/
def feed (b : LineBuffer) (available : List UInt8) : LineBuffer :=
  b.add available (available.take (MAX_LINE_BYTES - b.buf.length))

/-- The bytes before the newline. -/
def finish (b : LineBuffer) (line : List UInt8) : LineBuffer := b.add line []

def result (lossy : List UInt8 → Text) (b : LineBuffer) : LineRead :=
  if b.overflowed then .tooLong else .line (lossy b.buf)

/-- One turn of the loop. -/
def Turn (b b' : LineBuffer) : Prop := ∃ bytes, b' = b.feed bytes ∨ b' = b.finish bytes

end LineBuffer

/-- The loop of `read_capped_line`: the result, and what is left to read. -/
def readLoop (lossy : List UInt8 → Text) : List Chunk → LineBuffer → LineRead × List Chunk
  | [], b =>
    (if b.overflowed then .tooLong else if b.buf = [] then .eof else .line (lossy b.buf), [])
  | available :: more, b =>
    match available.val.idxOf? newline with
    | some idx =>
      ((b.finish (available.val.take idx)).result lossy, consume (idx + 1) available more)
    | none => readLoop lossy more (b.feed available.val)

/-- The buffers that the loop goes through. -/
def loopBuffers : List Chunk → LineBuffer → List LineBuffer
  | [], b => [b]
  | available :: more, b =>
    b :: match available.val.idxOf? newline with
      | some idx => [b.finish (available.val.take idx)]
      | none => loopBuffers more (b.feed available.val)

def readCappedLine (lossy : List UInt8 → Text) (chunks : List Chunk) : LineRead × List Chunk :=
  readLoop lossy chunks {}

/-- The results of one call after the other. -/
def results (lossy : List UInt8 → Text) (chunks : List Chunk) : Nat → LineRead
  | 0 => (readCappedLine lossy chunks).1
  | k + 1 => results lossy (readCappedLine lossy chunks).2 k

/-! ## The lines of a stream -/

/-- A stream, split at its newlines. Nothing after the last one is no line. -/
def lines (stream : List UInt8) : List (List UInt8) :=
  let pieces := stream.splitOn newline
  if pieces.getLast? = some [] then pieces.dropLast else pieces

def verdict (lossy : List UInt8 → Text) (line : List UInt8) : LineRead :=
  if line.length ≤ MAX_LINE_BYTES then .line (lossy line) else .tooLong

variable {lossy : List UInt8 → Text} {line rest p : List UInt8} {b : LineBuffer}

theorem lines_cons (h : newline ∉ line) :
    lines (line ++ newline :: rest) = line :: lines rest := by
  have hOther : ∀ x ∈ line, (x == newline) = false := fun x hx =>
    beq_false_of_ne fun hEq => h (hEq ▸ hx)
  have hSplit : (line ++ newline :: rest).splitOn newline = line :: rest.splitOn newline :=
    splitOnP_append_cons_of_forall_mem hOther _ (beq_self_eq_true _) _
  have hNe := splitOn_ne_nil newline rest
  simp only [lines, hSplit, getLast?_cons_of_ne_nil hNe, dropLast_cons_of_ne_nil hNe]
  split <;> rfl

theorem lines_last (h : newline ∉ line) : lines line = if line = [] then [] else [line] := by
  have hSplit : line.splitOn newline = [line] :=
    splitOnP_eq_singleton fun x hx => beq_false_of_ne fun hEq => h (hEq ▸ hx)
  simp [lines, hSplit]

/-! ## One call -/

/-- The buffer after the bytes `p` of a line. -/
structure LineBuffer.Holds (b : LineBuffer) (p : List UInt8) : Prop where
  overflowed : b.overflowed = true ↔ MAX_LINE_BYTES < p.length
  buf : p.length ≤ MAX_LINE_BYTES → b.buf = p

/-- Whether the bytes fit or not, the buffer stands for the longer line. -/
theorem LineBuffer.Holds.add (h : b.Holds p) (bytes kept : List UInt8) :
    (b.add bytes kept).Holds (p ++ bytes) := by
  unfold LineBuffer.add
  by_cases hLong : MAX_LINE_BYTES < p.length
  · rw [if_pos (h.overflowed.mpr hLong)]
    exact ⟨by simp [h.overflowed.mpr hLong]; omega, by simp; omega⟩
  · rw [if_neg (h.overflowed.not.mpr hLong), h.buf (not_lt.mp hLong)]
    split
    · exact ⟨by simp; omega, by simp; omega⟩
    · exact ⟨by simp [h.overflowed]; omega, fun _ => rfl⟩

/-- At the end of a line the buffer is its verdict. -/
theorem LineBuffer.Holds.result (h : b.Holds p) : b.result lossy = verdict lossy p := by
  unfold LineBuffer.result verdict
  by_cases hLong : MAX_LINE_BYTES < p.length
  · rw [if_pos (h.overflowed.mpr hLong), if_neg (not_le.mpr hLong)]
  · rw [if_neg (h.overflowed.not.mpr hLong), if_pos (not_lt.mp hLong), h.buf (not_lt.mp hLong)]

/-- What a turn adds, it adds up to the cap. -/
theorem LineBuffer.Turn.bounded {b' : LineBuffer} (hTurn : b.Turn b')
    (h : b.buf.length ≤ MAX_LINE_BYTES) : b'.buf.length ≤ MAX_LINE_BYTES := by
  have hAdd : ∀ bytes kept : List UInt8, b.buf.length + kept.length ≤ MAX_LINE_BYTES →
      (b.add bytes kept).buf.length ≤ MAX_LINE_BYTES := by
    intro bytes kept hKept
    unfold LineBuffer.add
    split
    · exact h
    · split <;> simp only [length_append] <;> omega
  obtain ⟨bytes, rfl | rfl⟩ := hTurn
  · refine hAdd _ _ ?_
    rw [length_take]
    omega
  · exact hAdd _ _ h

theorem bytes_consume (n : Nat) (available : Chunk) (more : List Chunk) :
    bytes (consume n available more) = available.val.drop n ++ bytes more := by
  unfold consume
  split
  next hNone => rw [hNone, nil_append]
  next => rfl

/-- The first newline of a buffer, with what is before and after it. -/
theorem eq_of_idxOf {l : List UInt8} {idx : Nat} (h : l.idxOf? newline = some idx) :
    newline ∉ l.take idx ∧ l = l.take idx ++ newline :: l.drop (idx + 1) := by
  obtain ⟨hLt, hAt, hBefore⟩ := idxOf?_eq_some_iff.mp h
  constructor
  · intro hIn
    obtain ⟨j, hj, hEq⟩ := mem_take_iff_getElem.mp hIn
    exact hBefore j (by omega) hEq
  · rw [← hAt, ← drop_eq_getElem_cons hLt, take_append_drop]

/-- The induction is on the buffers that the reader shows; `p` is what was taken from the
earlier ones. -/
theorem readLoop_spec (lossy : List UInt8 → Text) (hNone : newline ∉ p) (h : b.Holds p)
    (chunks : List Chunk) :
    (readLoop lossy chunks b).1 = (lines (p ++ bytes chunks)).head?.elim .eof (verdict lossy) ∧
      lines (bytes (readLoop lossy chunks b).2) = (lines (p ++ bytes chunks)).tail := by
  induction chunks generalizing p b with
  | nil =>
    have hLines : lines (p ++ bytes []) = if p = [] then [] else [p] := by
      rw [bytes, flatMap_nil, append_nil, lines_last hNone]
    rw [hLines]
    by_cases hp : p = []
    · have hShort : p.length ≤ MAX_LINE_BYTES := hp ▸ Nat.zero_le _
      rw [if_pos hp, readLoop, if_neg (h.overflowed.not.mpr hShort.not_gt), if_pos (h.buf hShort ▸ hp)]
      exact ⟨rfl, rfl⟩
    · have hEnd : (readLoop lossy [] b).1 = b.result lossy := by
        unfold readLoop LineBuffer.result
        split
        · rfl
        · next hFits =>
          have hBuf := h.buf (not_lt.mp (h.overflowed.not.mp hFits))
          exact if_neg fun hNil => hp (hBuf.symm.trans hNil)
      rw [if_neg hp]
      exact ⟨hEnd.trans h.result, rfl⟩
  | cons available more ih =>
    have hBytes : p ++ bytes (available :: more) = (p ++ available.val) ++ bytes more := by
      rw [append_assoc]
      rfl
    unfold readLoop
    cases hAt : available.val.idxOf? newline with
    | none =>
      have hOut : newline ∉ available.val := idxOf?_eq_none_iff.mp hAt
      rw [hBytes]
      exact ih (by simp [hNone, hOut]) (h.add _ _)
    | some idx =>
      obtain ⟨hOut, hSplit⟩ := eq_of_idxOf hAt
      have hLines : lines (p ++ bytes (available :: more)) =
          (p ++ available.val.take idx) :: lines (available.val.drop (idx + 1) ++ bytes more) := by
        rw [← lines_cons (by simp [hNone, hOut]), hBytes]
        conv_lhs => rw [hSplit]
        simp only [append_assoc, cons_append]
      rw [hLines, bytes_consume]
      exact ⟨(h.add _ _).result, rfl⟩

/-- The induction is on the calls; each goes on where the one before it stopped. -/
theorem results_eq (chunks : List Chunk) (k : Nat) :
    results lossy chunks k = (lines (bytes chunks))[k]?.elim .eof (verdict lossy) := by
  have hEmpty : LineBuffer.Holds {} [] := ⟨by simp, fun _ => rfl⟩
  induction k generalizing chunks with
  | zero => exact head?_eq_getElem? ▸ (readLoop_spec lossy not_mem_nil hEmpty chunks).1
  | succ k ih =>
    have hTail := (readLoop_spec lossy not_mem_nil hEmpty chunks).2
    rw [results, ih, readCappedLine, hTail, getElem?_tail, nil_append]

/-- The loop makes nothing but turns. -/
theorem loopBuffers_turns (chunks : List Chunk) :
    ∀ b' ∈ loopBuffers chunks b, ReflTransGen LineBuffer.Turn b b' := by
  induction chunks generalizing b with
  | nil => exact fun b' h => mem_singleton.mp h ▸ .refl
  | cons available more ih =>
    unfold loopBuffers
    cases available.val.idxOf? newline with
    | some idx =>
      refine forall_mem_cons.mpr ⟨.refl, fun b' h => mem_singleton.mp h ▸ .single ?_⟩
      exact ⟨_, .inr rfl⟩
    | none => exact forall_mem_cons.mpr ⟨.refl, fun b' h => .head ⟨_, .inl rfl⟩ (ih b' h)⟩

/-- **Key result:** however the reader cuts the stream, the results are the lines of the stream
in their order, each whole or reported as too long, and then the end of the input; and no turns
of the loop make a buffer of more than the cap. -/
theorem readCappedLine_lines (lossy : List UInt8 → Text) (chunks : List Chunk) :
    (∀ k, results lossy chunks k = (lines (bytes chunks))[k]?.elim .eof (verdict lossy)) ∧
      (∀ b ∈ loopBuffers chunks {}, ReflTransGen LineBuffer.Turn {} b) ∧
      ∀ b, ReflTransGen LineBuffer.Turn {} b → b.buf.length ≤ MAX_LINE_BYTES := by
  refine ⟨results_eq chunks, loopBuffers_turns chunks, fun b hRun => ?_⟩
  induction hRun with
  | refl => exact Nat.zero_le _
  | tail _ hTurn ih => exact hTurn.bounded ih

/-- The line `ab` in two buffers, the second of which begins the next line. -/
def cutLine : List Chunk := [⟨[97], by simp⟩, ⟨[98, 10, 99], by simp⟩]

theorem readCappedLine_lines_cut :
    results (map fun b => Char.ofNat b.toNat) cutLine 0 = .line ['a', 'b'] ∧
      (loopBuffers cutLine {}).map LineBuffer.buf = [[], [97], [97, 98]] ∧
      ∀ b ∈ loopBuffers cutLine {}, b.buf.length ≤ MAX_LINE_BYTES := by
  obtain ⟨hResults, hTurns, hBounded⟩ := readCappedLine_lines (map fun b => Char.ofNat b.toNat) cutLine
  exact ⟨(hResults 0).trans (by decide), by decide, fun b hb => hBounded b (hTurns b hb)⟩

end RustyBrain.Mcp

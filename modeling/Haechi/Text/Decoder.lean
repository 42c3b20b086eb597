import Haechi.Text.Encoding

/-! The lossy UTF-8 decoder: bytes that are no UTF-8 are replaced. It keeps what is left
of a character between two runs, so bytes may come in pieces. The decoder of a stream also
leaves out a byte order mark. -/

namespace Haechi.Text

/-- A character whose last bytes are owed, and the range of the next one. -/
structure Decoder where
  owed : ℕ
  bits : ℕ
  lower : ℕ
  upper : ℕ
deriving DecidableEq

namespace Decoder

def idle : Decoder := ⟨0, 0, 0x80, 0xbf⟩

/-- The first byte of a character. -/
def first (byte : ℕ) : JsString × Decoder :=
  if byte < 0x80 then (utf16Of byte, idle)
  else if 0xc2 ≤ byte ∧ byte ≤ 0xdf then ([], ⟨1, byte % 0x20, 0x80, 0xbf⟩)
  else if 0xe0 ≤ byte ∧ byte ≤ 0xef then
    ([], ⟨2, byte % 0x10, if byte = 0xe0 then 0xa0 else 0x80, if byte = 0xed then 0x9f else 0xbf⟩)
  else if 0xf0 ≤ byte ∧ byte ≤ 0xf4 then
    ([], ⟨3, byte % 0x08, if byte = 0xf0 then 0x90 else 0x80, if byte = 0xf4 then 0x8f else 0xbf⟩)
  else ([0xfffd], idle)

/-- One byte: what it completes, and what is owed after it. A byte that cannot go on
with a character ends it, and is the first of another. -/
def step (d : Decoder) (byte : ℕ) : JsString × Decoder :=
  if d.owed = 0 then first byte
  else if d.lower ≤ byte ∧ byte ≤ d.upper then
    if d.owed = 1 then (utf16Of (d.bits * 0x40 + byte % 0x40), idle)
    else ([], ⟨d.owed - 1, d.bits * 0x40 + byte % 0x40, 0x80, 0xbf⟩)
  else (0xfffd :: (first byte).1, (first byte).2)

def run (d : Decoder) : List ℕ → JsString × Decoder
  | [] => ([], d)
  | byte :: bytes => ((d.step byte).1 ++ ((d.step byte).2.run bytes).1, ((d.step byte).2.run bytes).2)

/-- The end of the bytes. -/
def flush (d : Decoder) : JsString := if d.owed = 0 then [] else [0xfffd]

/-- Bytes may come in pieces. -/
theorem run_append (d : Decoder) (xs ys : List ℕ) :
    d.run (xs ++ ys) = ((d.run xs).1 ++ ((d.run xs).2.run ys).1, ((d.run xs).2.run ys).2) := by
  induction xs generalizing d with
  | nil => rfl
  | cons x xs ih => rw [List.cons_append, run, run, ih, List.append_assoc]

end Decoder

/-- `Buffer.toString("utf8")`. -/
def decodeLossy (bytes : List ℕ) : JsString :=
  (Decoder.idle.run bytes).1 ++ (Decoder.idle.run bytes).2.flush

/-! ### The decoder of a stream -/

/-- `TextDecoder` for UTF-8: it leaves out a byte order mark at the start. -/
structure TextDecoder where
  utf8 : Decoder
  bomSeen : Bool

namespace TextDecoder

def start : TextDecoder := ⟨.idle, false⟩

/-- The first character of the stream goes if it is the mark. -/
def dropMark (bomSeen : Bool) : JsString → JsString × Bool
  | [] => ([], bomSeen)
  | c :: rest => (if !bomSeen && c == 0xfeff then rest else c :: rest, true)

/-- `decode` of a part of a stream. -/
def decode (d : TextDecoder) (bytes : List ℕ) : JsString × TextDecoder :=
  let (text, utf8) := d.utf8.run bytes
  let (text, bomSeen) := dropMark d.bomSeen text
  (text, ⟨utf8, bomSeen⟩)

/-- `decode` at the end of the stream. -/
def finish (d : TextDecoder) : JsString := d.utf8.flush

theorem dropMark_append (bomSeen : Bool) (xs ys : JsString) :
    dropMark bomSeen (xs ++ ys) =
      ((dropMark bomSeen xs).1 ++ (dropMark (dropMark bomSeen xs).2 ys).1,
        (dropMark (dropMark bomSeen xs).2 ys).2) := by
  cases xs with
  | nil => rfl
  | cons c rest =>
    cases ys with
    | nil => simp [dropMark]
    | cons c' rest' =>
      simp only [dropMark, List.cons_append, Bool.not_true, Bool.false_and, Bool.false_eq_true,
        if_false]
      split <;> rfl

/-- Bytes may come in pieces. -/
theorem decode_append (d : TextDecoder) (xs ys : List ℕ) :
    d.decode (xs ++ ys) =
      ((d.decode xs).1 ++ ((d.decode xs).2.decode ys).1, ((d.decode xs).2.decode ys).2) := by
  simp only [decode, Decoder.run_append, dropMark_append]

end TextDecoder

/-- What a stream of bytes says. -/
def decodeStream (bytes : List ℕ) : JsString :=
  (TextDecoder.start.decode bytes).1 ++ (TextDecoder.start.decode bytes).2.finish

end Haechi.Text
